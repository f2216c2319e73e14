import DockerEngine.Lib.Filepath
import DockerEngine.Lib.Trace

/-!
# Mounting a device

`MountDevice` and `UnmountDevice` count the users of a device, which is mounted for the first of them. Each system
call may fail. `UnmountDevice` counts the last user out before the calls that may fail: if one of them does, the
user gets an error, and the count is zero while the device may still be mounted. `mountCount_exact_iff` says that
nothing else makes the count wrong.
-/

namespace DockerEngine.Devmapper

open Filepath

inductive SysCall where
  | activate
  | probe
  | mount
  | unmount
  | deactivate
  deriving DecidableEq, Repr

/-- The fields of `DevInfo` about mounts, and the places at which the kernel has the device mounted. -/
structure Mounting where
  mountCount : Nat
  mountPath : Str
  places : List Str

inductive MountErr where
  | multiplePlaces (mountPath path : Str)
  | notMounted
  | failed (call : SysCall)

section

variable (fails : SysCall → Bool) (path : Str) (info : Mounting)

/-- `MountDevice`, for a device that was found. -/
def mountDevice : Except MountErr Unit × Mounting :=
  if 0 < info.mountCount then
    if path ≠ info.mountPath then (.error (.multiplePlaces info.mountPath path), info)
    else (.ok (), { info with mountCount := info.mountCount + 1 })
  else if fails .activate then (.error (.failed .activate), info)
  else if fails .probe then (.error (.failed .probe), info)
  else if fails .mount then (.error (.failed .mount), info)
  else (.ok (), ⟨1, path, path :: info.places⟩)

/-- `UnmountDevice`, for a device that was found. -/
def unmountDevice : Except MountErr Unit × Mounting :=
  if info.mountCount = 0 then (.error .notMounted, info)
  else
    let info := { info with mountCount := info.mountCount - 1 }
    if 0 < info.mountCount then (.ok (), info)
    else if fails .unmount ∨ info.mountPath ∉ info.places then (.error (.failed .unmount), info)
    else
      let info := { info with places := info.places.erase info.mountPath }
      if fails .deactivate then (.error (.failed .deactivate), info)
      else (.ok (), { info with mountPath := [] })

end

inductive MountCall where
  | mount (fails : SysCall → Bool) (path : Str)
  | unmount (fails : SysCall → Bool)

/-- A device, and how many calls of either kind were successful. -/
structure Mounts where
  info : Mounting
  mounted : Nat
  unmounted : Nat

/-- One more, after a success. -/
def count (n : Nat) : Except MountErr Unit → Nat
  | .ok _ => n + 1
  | .error _ => n

def Mounts.apply (s : Mounts) : MountCall → Mounts
  | .mount fails path =>
    let r := mountDevice fails path s.info
    ⟨r.2, count s.mounted r.1, s.unmounted⟩
  | .unmount fails =>
    let r := unmountDevice fails s.info
    ⟨r.2, s.mounted, count s.unmounted r.1⟩

/-- The device is mounted at its path if it has users and nowhere if it has none, and the users are those who
mounted it and did not unmount it. -/
structure Exact (s : Mounts) : Prop where
  places : s.info.places = if 0 < s.info.mountCount then [s.info.mountPath] else []
  count : s.info.mountCount + s.unmounted = s.mounted

/-- No system call fails for the last user of the device. -/
def Releases (s : Mounts) : MountCall → Prop
  | .mount _ _ => True
  | .unmount fails => s.info.mountCount = 1 → fails .unmount = false ∧ fails .deactivate = false

theorem exact_apply_iff {s : Mounts} (h : Exact s) (c : MountCall) : Exact (s.apply c) ↔ Releases s c := by
  obtain ⟨hplaces, hcount⟩ := h
  cases c with
  | mount fails path =>
    refine iff_of_true ?_ trivial
    constructor <;> grind [Mounts.apply, mountDevice, count]
  | unmount fails =>
    constructor
    · rintro ⟨-, h⟩
      grind [Mounts.apply, unmountDevice, count, Releases]
    · intro h
      constructor <;> grind [Mounts.apply, unmountDevice, count, Releases]

/-- **The mount count is exact after every call** exactly if no system call fails for the last user. -/
theorem mountCount_exact_iff (calls : List MountCall) :
    (∀ pre, pre <+: calls → Exact (pre.foldl Mounts.apply ⟨⟨0, [], []⟩, 0, 0⟩)) ↔
      ∀ pre c, pre ++ [c] <+: calls → Releases (pre.foldl Mounts.apply ⟨⟨0, [], []⟩, 0, 0⟩) c :=
  Trace.forall_prefix_iff (fun _ c h => exact_apply_iff h c) ⟨rfl, rfl⟩

/-- A device that could not be unmounted has no users. -/
theorem mountCount_zero_mounted :
    [.mount (fun _ => false) ['p'], .unmount (· = .unmount)].foldl Mounts.apply ⟨⟨0, [], []⟩, 0, 0⟩ =
      ⟨⟨0, ['p'], [['p']]⟩, 1, 0⟩ := rfl

end DockerEngine.Devmapper
