import DockerEngine.Lib.GoMap
import DockerEngine.Lib.Numerals
import DockerEngine.Lib.Outcome
import DockerEngine.Lib.Words

/-!
# Port specifications

The values of `-p`, of the form `[[ip:][hostRange]:]containerRange[/proto]`. `ParsePortSpecs` takes a value apart at
its last slash, its colons and the dashes of its ranges, and binds each port of the container to the host port that
stands at the same place of the host range.

A range is split at every dash and only its first two parts are looked at, so that `1-2-3` passes for `1-2`
(`LooseRange`). Apart from that the values are read exactly (`parsePortSpecs_exact_iff`).

`net.ParseIP` is a parameter. Lower case is that of ASCII: no other character is one of the letters of `tcp` and
`udp` in lower case.
-/

namespace DockerEngine.Ports

open Bytes Outcome List GoMap Except

/-! ## Ranges -/

section

variable (s : Bytes) (parseIP : Bytes → Bool)

/-- `strconv.ParseUint(s, 10, 16)`. -/
def parseUint : Option Nat :=
  if s ≠ [] ∧ s.all isDigit = true ∧ value s ≤ 65535 then some (value s) else none

/-- The errors of `ParsePortRange`. -/
inductive RangeErr where
  | empty
  | number (s : Bytes)
  | order (ports : Bytes)
  deriving DecidableEq, Repr

/-- A number, or the error of `strconv`. -/
def readNumber : Except RangeErr Nat :=
  match parseUint s with
  | some n => .ok n
  | none => .error (.number s)

/-- `ParsePortRange`. -/
def parsePortRange (ports : Bytes) : Except RangeErr (Nat × Nat) :=
  if ports = [] then .error .empty
  else if ch '-' ∉ ports then do
    let start ← readNumber ports
    return (start, start)
  else do
    let parts := ports.splitOn (ch '-')
    let first ← readNumber (parts.getD 0 [])
    let last ← readNumber (parts.getD 1 [])
    ensure (first ≤ last) (.order ports)
    return (first, last)

/-! ## One value -/

/-- The errors of `ParsePortSpecs`. -/
inductive PortErr where
  | format (data template : Bytes)
  | ip (rawIP : Bytes)
  | noPort (rawPort : Bytes)
  | containerPort (containerPort : Bytes)
  | hostPort (hostPort : Bytes)
  | ranges (containerPort hostPort : Bytes)
  | proto (proto : Bytes)
  | number (port : Bytes)
  deriving DecidableEq, Repr

/-- The text of an error. That of a number is the one of `strconv`. -/
def PortErr.text : PortErr → Bytes
  | .format data template =>
    Bytes.text "Invalid format to parse.  " ++ data ++ Bytes.text " should match template " ++ template
  | .ip rawIP => Bytes.text "Invalid ip address: " ++ rawIP
  | .noPort rawPort => Bytes.text "No port specified: " ++ rawPort ++ Bytes.text "<empty>"
  | .containerPort p => Bytes.text "Invalid containerPort: " ++ p
  | .hostPort p => Bytes.text "Invalid hostPort: " ++ p
  | .ranges c h => Bytes.text "Invalid ranges specified for container and host Ports: " ++ c ++ Bytes.text " and " ++ h
  | .proto p => Bytes.text "Invalid proto: " ++ p
  | .number p => Bytes.text "strconv.ParseUint: parsing " ++ p

/-- `PartParser`: the parts of the data, by the names that the template has for them. -/
def partParser (template data : Bytes) : Except PortErr (List (Bytes × Bytes)) := do
  let templateParts := template.splitOn (ch ':')
  let parts := data.splitOn (ch ':')
  ensure (parts.length == templateParts.length) (.format data template)
  return templateParts.zip parts

/-- `portSpecTemplate`. -/
def portSpecTemplate : Bytes := text "ip:hostPort:containerPort"

/-- `strings.ToLower`, for ASCII. -/
def toLower : Bytes := s.map fun b => if 65 ≤ b && b ≤ 90 then b + 32 else b

/-- `validateProto`. -/
def validateProto (proto : Bytes) : Bool := [text "tcp", text "udp"].contains proto

/-- A text cut at the last place of a byte. -/
def cutLast (c : UInt8) (s : Bytes) : Option (Bytes × Bytes) :=
  (cut c s.reverse).map fun (back, front) => (front.reverse, back.reverse)

/-- A value without its protocol, and the protocol. -/
def splitProto (rawPort : Bytes) : Bytes × Bytes := (cutLast (ch '/') rawPort).getD (rawPort, text "tcp")

/-- The value with the colons of the parts that were left out. -/
def padded (rawPort : Bytes) : Bytes :=
  if ch ':' ∉ rawPort then text "::" ++ rawPort
  else if (rawPort.splitOn (ch ':')).length = 2 then text ":" ++ rawPort
  else rawPort

/-- The variables of the loop of `ParsePortSpecs` before its ports are bound. -/
structure Parsed where
  proto : Bytes
  ip : Bytes
  hostPort : Bytes
  container : Nat × Nat
  host : Nat × Nat
  deriving DecidableEq, Repr

/-- A range, with the error that `ParsePortSpecs` has for it. -/
def readRange (ports : Bytes) (e : PortErr) : Except PortErr (Nat × Nat) :=
  match parsePortRange ports with
  | .ok r => .ok r
  | .error _ => .error e

/-- A host range, which may be left out. -/
def readHost (hostPort : Bytes) : Except PortErr (Nat × Nat) :=
  if 0 < hostPort.length then readRange hostPort (.hostPort hostPort) else .ok (0, 0)

/-- The tests of the parts of a value. -/
def checkParts (proto rawPort rawIP hostPort containerPort : Bytes) : Except PortErr Parsed := do
  ensure (rawIP == [] || parseIP rawIP) (.ip rawIP)
  ensure (containerPort != []) (.noPort rawPort)
  let container ← readRange containerPort (.containerPort containerPort)
  let host ← readHost hostPort
  ensure (hostPort == [] || container.2 - container.1 == host.2 - host.1) (.ranges containerPort hostPort)
  ensure (validateProto (toLower proto)) (.proto proto)
  return ⟨toLower proto, rawIP, hostPort, container, host⟩

/-- The first part of the loop of `ParsePortSpecs`. -/
def parseSpec (spec : Bytes) : Except PortErr Parsed := do
  let proto := (splitProto spec).2
  let rawPort := padded (splitProto spec).1
  let parts ← partParser portSpecTemplate rawPort
  let containerPort := (parts.lookup (text "containerPort")).getD []
  let rawIP := (parts.lookup (text "ip")).getD []
  let hostPort := (parts.lookup (text "hostPort")).getD []
  checkParts parseIP proto rawPort rawIP hostPort containerPort

/-! ## Bindings -/

/-- `PortBinding`. -/
structure PortBinding where
  hostIP : Bytes
  hostPort : Bytes
  deriving DecidableEq, Repr

/-- `ParsePort`. -/
def parsePort (rawPort : Bytes) : Option Nat := if rawPort.length = 0 then some 0 else parseUint rawPort

/-- `NewPort`. -/
def newPort (proto port : Bytes) : Except PortErr Bytes :=
  match parsePort port with
  | some n => .ok (decimal n ++ text "/" ++ proto)
  | none => .error (.number port)

/-- The two maps that `ParsePortSpecs` returns. -/
structure PortMaps where
  exposed : GoMap Bytes Unit
  bindings : GoMap Bytes (List PortBinding)

/-- One port of a value is bound. -/
def bindPort (p : Parsed) (m : PortMaps) (i : Nat) : Except PortErr PortMaps := do
  let containerPort := decimal (p.container.1 + i)
  let hostPort := if 0 < p.hostPort.length then decimal (p.host.1 + i) else p.hostPort
  let port ← newPort p.proto containerPort
  let exposed := if m.exposed.get port = none then m.exposed.set port () else m.exposed
  let bslice := (m.bindings.get port).getD []
  return ⟨exposed, m.bindings.set port (bslice ++ [⟨p.ip, hostPort⟩])⟩

/-- The second part of the loop of `ParsePortSpecs`. -/
def bindPorts (p : Parsed) (m : PortMaps) : Except PortErr PortMaps :=
  (range (p.container.2 - p.container.1 + 1)).foldlM (bindPort p) m

/-- `ParsePortSpecs`. -/
def parsePortSpecs (ports : List Bytes) : Except PortErr PortMaps :=
  ports.foldlM (fun m rawPort => do
    let p ← parseSpec parseIP rawPort
    bindPorts p m) ⟨.empty, .empty⟩

/-! ## The form of a value -/

/-- The digits of a number that fits in 16 bits. -/
def Numeral (t : Bytes) (n : Nat) : Prop := t ≠ [] ∧ (∀ b ∈ t, isDigit b = true) ∧ value t = n ∧ n ≤ 65535

/-- `N` or `N-M`. -/
def Range (t : Bytes) (r : Nat × Nat) : Prop :=
  (Numeral t r.1 ∧ r.2 = r.1) ∨ ∃ u v, t = u ++ ch '-' :: v ∧ Numeral u r.1 ∧ Numeral v r.2 ∧ r.1 ≤ r.2

/-- What is taken for a range: `N`, or `N-M` with whatever follows after another dash. -/
def LooseRange (t : Bytes) (r : Nat × Nat) : Prop :=
  Range t r ∨ ∃ u v w, t = u ++ ch '-' :: (v ++ ch '-' :: w) ∧ Numeral u r.1 ∧ Numeral v r.2 ∧ r.1 ≤ r.2

/-- What a value says. -/
structure Spec where
  ip : Bytes
  host : Option (Nat × Nat)
  container : Nat × Nat
  proto : Bytes

/-- A value is `main`, or `main/proto`; it has no slash if it has no protocol. -/
def Proto (main proto : Bytes) : Prop :=
  (ch '/' ∉ s ∧ main = s ∧ proto = text "tcp") ∨
    ∃ p, s = main ++ ch '/' :: p ∧ toLower p = proto ∧ (proto = text "tcp" ∨ proto = text "udp")

/-- `container`, `host:container` or `ip:host:container`. -/
def Parts (main ip host container : Bytes) : Prop :=
  (ch ':' ∉ ip ∧ ch ':' ∉ host ∧ ch ':' ∉ container) ∧
    ((main = container ∧ ip = [] ∧ host = []) ∨ (main = host ++ ch ':' :: container ∧ ip = []) ∨
      main = ip ++ ch ':' :: (host ++ ch ':' :: container))

/-- A host range that may be left out. -/
def HostRange (R : Bytes → Nat × Nat → Prop) (t : Bytes) (host : Option (Nat × Nat)) : Prop :=
  (t = [] ∧ host = none) ∨ ∃ r, R t r ∧ host = some r

/-- **The form of a value**, `[[ip:][hostRange]:]containerRange[/proto]`, with what is a range left open. -/
def Denotes (R : Bytes → Nat × Nat → Prop) (parseIP : Bytes → Bool) (s : Bytes) (sp : Spec) : Prop :=
  ∃ main host container, Proto s main sp.proto ∧ Parts main sp.ip host container ∧
    (sp.ip = [] ∨ parseIP sp.ip = true) ∧ HostRange R host sp.host ∧ R container sp.container ∧
    ∀ h, sp.host = some h → sp.container.2 - sp.container.1 = h.2 - h.1

/-- The bindings of a value: the `k`-th port of the container with the `k`-th port of the host. -/
def Spec.pairs (sp : Spec) : List (Bytes × PortBinding) :=
  (range (sp.container.2 - sp.container.1 + 1)).map fun k =>
    (decimal (sp.container.1 + k) ++ text "/" ++ sp.proto,
      ⟨sp.ip, (sp.host.map fun h => decimal (h.1 + k)).getD []⟩)

/-- What a map of bindings has for a port: the bindings of that port, in order. -/
def listed (ps : List (Bytes × PortBinding)) (port : Bytes) : Option (List PortBinding) :=
  match (ps.filter fun p => p.1 == port).map Prod.snd with
  | [] => none
  | l => some l

/-- The values are read exactly. -/
def Exact (specs : List Bytes) (result : Except PortErr PortMaps) : Prop :=
  (result.isOk = true ↔ ∀ s ∈ specs, ∃ sp, Denotes Range parseIP s sp) ∧
    ∀ m, result = .ok m → ∃ sps, List.Forall₂ (Denotes Range parseIP) specs sps ∧
      (∀ port, m.bindings.get port = listed (sps.flatMap Spec.pairs) port) ∧
      ∀ port, port ∈ m.exposed.keys ↔ port ∈ m.bindings.keys

/-- No part of a value but the address has more than one dash. -/
def tidy : Bool := (((splitProto s).1.splitOn (ch ':')).reverse.take 2).all fun part => part.count (ch '-') ≤ 1

end

/-! ## Numbers and ranges -/

variable {t : Bytes} {n : Nat}

theorem readNumber_iff : readNumber t = .ok n ↔ Numeral t n := by
  rw [readNumber, parseUint, Numeral]
  split
  next m hm =>
    split at hm
    next h =>
      cases hm
      simp only [ok.injEq]
      rw [all_eq_true] at h
      exact ⟨fun hn => ⟨h.1, h.2.1, hn, hn ▸ h.2.2⟩, fun hn => hn.2.2.1⟩
    next => cases hm
  next hm =>
    split at hm
    next => cases hm
    next h =>
      refine ⟨nofun, fun hn => absurd ⟨hn.1, all_eq_true.mpr hn.2.1, ?_⟩ h⟩
      rw [hn.2.2.1]
      exact hn.2.2.2

theorem Numeral.dash (h : Numeral t n) : ch '-' ∉ t := by
  intro hmem
  have := h.2.1 _ hmem
  exact absurd this (by decide)

variable {c : UInt8}

/-- The first part of a text that is split. -/
theorem head_splitOn (c : UInt8) (v : Bytes) :
    (c ∉ v ∧ (v.splitOn c).getD 0 [] = v) ∨ ∃ v' w, v = v' ++ c :: w ∧ (v.splitOn c).getD 0 [] = v' := by
  by_cases hc : c ∈ v
  · obtain ⟨v', w, rfl, hv⟩ := eq_append_cons_of_mem hc
    exact .inr ⟨v', w, rfl, by rw [Words.splitOn_cons hv]; rfl⟩
  · exact .inl ⟨hc, by rw [splitOn_eq_singleton hc]; rfl⟩

variable {r : Nat × Nat}

/-- The two numbers of a range with a dash. -/
theorem parsePortRange_dash {u v : Bytes} (hu : ch '-' ∉ u) : parsePortRange (u ++ ch '-' :: v) = .ok r ↔
      Numeral u r.1 ∧ Numeral ((v.splitOn (ch '-')).getD 0 []) r.2 ∧ r.1 ≤ r.2 := by
  have hdash : ¬ ch '-' ∉ u ++ ch '-' :: v := by simp
  rw [parsePortRange, if_neg (by simp), if_neg hdash]
  simp only [Words.splitOn_cons hu, getD_cons_zero, getD_cons_succ, bind_eq_ok, ensure_eq_ok,
    readNumber_iff, pure, Except.pure, ok.injEq, decide_eq_true_eq, exists_const]
  constructor
  · rintro ⟨a, ha, b, hb, hle, rfl⟩
    exact ⟨ha, hb, hle⟩
  · rintro ⟨ha, hb, hle⟩
    exact ⟨r.1, ha, r.2, hb, hle, rfl⟩

/-- **What `ParsePortRange` takes for a range.** -/
theorem parsePortRange_iff : parsePortRange t = .ok r ↔ LooseRange t r := by
  by_cases hdash : ch '-' ∈ t
  · obtain ⟨u, v, rfl, hu⟩ := eq_append_cons_of_mem hdash
    rw [parsePortRange_dash hu]
    constructor
    · rintro ⟨ha, hb, hle⟩
      obtain ⟨-, hhead⟩ | ⟨v', w, rfl, hhead⟩ := head_splitOn (ch '-') v
      · exact .inl (.inr ⟨u, v, rfl, ha, hhead ▸ hb, hle⟩)
      · exact .inr ⟨u, v', w, rfl, ha, hhead ▸ hb, hle⟩
    · rintro ((⟨hn, -⟩ | ⟨u', v', heq, ha, hb, hle⟩) | ⟨u', v', w, heq, ha, hb, hle⟩)
      · exact absurd hdash hn.dash
      · obtain ⟨rfl, rfl⟩ := Words.append_cons_inj hu ha.dash heq
        rw [splitOn_eq_singleton hb.dash]
        exact ⟨ha, hb, hle⟩
      · obtain ⟨rfl, rfl⟩ := Words.append_cons_inj hu ha.dash heq
        rw [Words.splitOn_cons hb.dash]
        exact ⟨ha, hb, hle⟩
  · have hplain : parsePortRange t = .ok r ↔ Numeral t r.1 ∧ r.2 = r.1 := by
      rw [parsePortRange, if_pos hdash]
      split
      next h => exact ⟨nofun, fun hn => absurd h hn.1.1⟩
      next =>
        simp only [bind_eq_ok, readNumber_iff, pure, Except.pure, Except.ok.injEq]
        constructor
        · rintro ⟨a, ha, rfl⟩
          exact ⟨ha, rfl⟩
        · rintro ⟨ha, hr⟩
          exact ⟨r.1, ha, Prod.ext rfl hr.symm⟩
    rw [hplain]
    refine ⟨fun h => .inl (.inl h), ?_⟩
    rintro ((h | ⟨u, v, rfl, -⟩) | ⟨u, v, w, rfl, -⟩)
    · exact h
    · simp at hdash
    · simp at hdash

/-- A range is exact if it has at most one dash. -/
theorem range_iff : Range t r ↔ LooseRange t r ∧ t.count (ch '-') ≤ 1 := by
  have hzero : ∀ {u n}, Numeral u n → u.count (ch '-') = 0 := fun h => count_eq_zero.mpr h.dash
  constructor
  · intro h
    refine ⟨.inl h, ?_⟩
    obtain ⟨hn, -⟩ | ⟨u, v, rfl, hu, hv, -⟩ := h
    · rw [hzero hn]
      omega
    · rw [count_append, count_cons_self, hzero hu, hzero hv]
  · rintro ⟨h | ⟨u, v, w, rfl, -⟩, hcount⟩
    · exact h
    · rw [count_append, count_cons_self, count_append, count_cons_self] at hcount
      omega

/-! ## The parts of a value -/

variable {s : Bytes}

theorem cutLast_eq_none (h : c ∉ s) : cutLast c s = none := by
  rw [cutLast, cut_eq_none (by rwa [mem_reverse])]
  rfl

theorem cutLast_append {b : Bytes} (h : c ∉ b) (a : Bytes) : cutLast c (a ++ c :: b) = some (a, b) := by
  have hreverse : (a ++ c :: b).reverse = b.reverse ++ c :: a.reverse := by simp
  rw [cutLast, hreverse, cut_append (by rwa [mem_reverse])]
  simp

theorem cutLast_cases (c : UInt8) (s : Bytes) :
    (c ∉ s ∧ cutLast c s = none) ∨ ∃ a b, s = a ++ c :: b ∧ c ∉ b ∧ cutLast c s = some (a, b) := by
  by_cases h : c ∈ s
  · obtain ⟨b, a, hs, hb⟩ := eq_append_cons_of_mem (mem_reverse.mpr h)
    have hsplit : s = a.reverse ++ c :: b.reverse := by
      rw [← reverse_reverse s, hs]
      simp
    rw [← mem_reverse] at hb
    exact .inr ⟨a.reverse, b.reverse, hsplit, hb, hsplit ▸ cutLast_append hb a.reverse⟩
  · exact .inl ⟨h, cutLast_eq_none h⟩

variable {proto : Bytes}

theorem validateProto_iff : validateProto proto ↔ proto = text "tcp" ∨ proto = text "udp" := by
  simp [validateProto]

/-- A protocol has no slash. -/
theorem slash_of_toLower {p : Bytes} (h : toLower p = text "tcp" ∨ toLower p = text "udp") : ch '/' ∉ p := by
  intro hmem
  have hlower : ch '/' ∈ toLower p := mem_map.mpr ⟨ch '/', hmem, by decide⟩
  obtain h | h := h
  · rw [h] at hlower
    exact absurd hlower (by decide)
  · rw [h] at hlower
    exact absurd hlower (by decide)

variable {main : Bytes}

theorem proto_iff :
    (splitProto s).1 = main ∧ toLower (splitProto s).2 = proto ∧ validateProto proto ↔ Proto s main proto := by
  have htcp : toLower (text "tcp") = text "tcp" := by decide
  rw [splitProto, validateProto_iff]
  constructor
  · rintro ⟨rfl, rfl, hproto⟩
    obtain ⟨hslash, hcut⟩ | ⟨a, b, rfl, -, hcut⟩ := cutLast_cases (ch '/') s
    · rw [hcut]
      exact .inl ⟨hslash, rfl, htcp⟩
    · rw [hcut] at hproto ⊢
      exact .inr ⟨b, rfl, rfl, hproto⟩
  · rintro (⟨hslash, rfl, rfl⟩ | ⟨p, rfl, rfl, hproto⟩)
    · rw [cutLast_eq_none hslash]
      exact ⟨rfl, htcp, .inl rfl⟩
    · rw [cutLast_append (slash_of_toLower hproto)]
      exact ⟨rfl, rfl, hproto⟩

variable {host container : Bytes}

theorem splitOn_two : main.splitOn (ch ':') = [host, container] ↔
      (ch ':' ∉ host ∧ ch ':' ∉ container) ∧ main = host ++ ch ':' :: container := by
  rw [Words.splitOn_eq_iff]
  simp [intercalate]

variable {ip : Bytes}

theorem splitOn_three : main.splitOn (ch ':') = [ip, host, container] ↔
      (ch ':' ∉ ip ∧ ch ':' ∉ host ∧ ch ':' ∉ container) ∧ main = ip ++ ch ':' :: (host ++ ch ':' :: container) := by
  rw [Words.splitOn_eq_iff]
  simp [intercalate]

/-- The parts of a value after the colons were added. -/
theorem splitOn_padded : (padded main).splitOn (ch ':') = [ip, host, container] ↔ Parts main ip host container := by
  have hone : ∀ s : Bytes, (text ":" ++ s).splitOn (ch ':') = [] :: s.splitOn (ch ':') := Words.splitOn_cons not_mem_nil
  have htwo : ∀ s : Bytes, (text "::" ++ s).splitOn (ch ':') = [] :: [] :: s.splitOn (ch ':') := by
    intro s
    rw [← hone, ← hone]
    rfl
  rw [padded]
  split
  next hcolon =>
    rw [htwo, splitOn_eq_singleton hcolon, Parts]
    constructor
    · intro h
      cases h
      exact ⟨⟨not_mem_nil, not_mem_nil, hcolon⟩, .inl ⟨rfl, rfl, rfl⟩⟩
    · rintro ⟨-, ⟨rfl, rfl, rfl⟩ | ⟨rfl, -⟩ | rfl⟩
      · rfl
      · simp at hcolon
      · simp at hcolon
  next hcolon =>
    split
    next hlength =>
      rw [hone]
      constructor
      · intro h
        obtain ⟨rfl, hrest⟩ := cons.inj h
        obtain ⟨⟨hhost, hcontainer⟩, hmain⟩ := splitOn_two.mp hrest
        exact ⟨⟨not_mem_nil, hhost, hcontainer⟩, .inr (.inl ⟨hmain, rfl⟩)⟩
      · rintro ⟨⟨hip, hhost, hcontainer⟩, ⟨rfl, -⟩ | ⟨hmain, rfl⟩ | hmain⟩
        · exact absurd hcontainer hcolon
        · rw [splitOn_two.mpr ⟨⟨hhost, hcontainer⟩, hmain⟩]
        · rw [splitOn_three.mpr ⟨⟨hip, hhost, hcontainer⟩, hmain⟩] at hlength
          cases hlength
    next hlength =>
      rw [splitOn_three]
      refine ⟨fun ⟨hcolons, hmain⟩ => ⟨hcolons, .inr (.inr hmain)⟩, ?_⟩
      rintro ⟨⟨hip, hhost, hcontainer⟩, ⟨rfl, -⟩ | ⟨hmain, -⟩ | hmain⟩
      · exact absurd hcontainer hcolon
      · rw [splitOn_two.mpr ⟨⟨hhost, hcontainer⟩, hmain⟩] at hlength
        exact absurd rfl hlength
      · exact ⟨⟨hip, hhost, hcontainer⟩, hmain⟩

/-- `PartParser` for the template of a value. -/
theorem partParser_iff {parts : List (Bytes × Bytes)} : partParser portSpecTemplate (padded main) = .ok parts ↔
      ∃ ip host container, Parts main ip host container ∧
        parts = [(text "ip", ip), (text "hostPort", host), (text "containerPort", container)] := by
  have htemplate : portSpecTemplate.splitOn (ch ':') = [text "ip", text "hostPort", text "containerPort"] := by
    decide
  simp only [partParser, htemplate, bind_eq_ok, ensure_eq_ok, exists_const, pure, Except.pure, ok.injEq,
    beq_iff_eq, ← splitOn_padded]
  constructor
  · rintro ⟨hlength, rfl⟩
    obtain ⟨ip, host, container, h⟩ := length_eq_three.mp hlength
    exact ⟨ip, host, container, h, by rw [h]; rfl⟩
  · rintro ⟨ip, host, container, h, rfl⟩
    rw [h]
    exact ⟨rfl, rfl⟩

/-! ## One value -/

/-- What was read of a value. -/
def Parsed.spec (p : Parsed) : Spec := ⟨p.ip, if p.hostPort = [] then none else some p.host, p.container, p.proto⟩

theorem readRange_iff {e : PortErr} : readRange t e = .ok r ↔ LooseRange t r := by
  rw [← parsePortRange_iff, readRange]
  cases parsePortRange t with
  | error _ => exact ⟨nofun, nofun⟩
  | ok r' => simp

theorem LooseRange.ne_nil (h : LooseRange t r) : t ≠ [] := by
  obtain (⟨h, -⟩ | ⟨u, v, rfl, -⟩) | ⟨u, v, w, rfl, -⟩ := h
  · exact h.1
  · simp
  · simp

theorem readHost_iff : readHost t = .ok r ↔ (t = [] ∧ r = (0, 0)) ∨ LooseRange t r := by
  rw [readHost]
  split
  next h =>
    rw [readRange_iff]
    exact ⟨.inr, fun hr => hr.resolve_left fun hnil => by simp [hnil.1] at h⟩
  next h =>
    have hnil : t = [] := length_eq_zero_iff.mp (by omega)
    rw [ok.injEq]
    exact ⟨fun hr => .inl ⟨hnil, hr.symm⟩, fun hr => (hr.resolve_right fun hr => hr.ne_nil hnil).2.symm⟩

variable {parseIP : Bytes → Bool} {p : Parsed}

/-- The tests that the parts have to pass. -/
theorem checkParts_iff {rawPort : Bytes} : checkParts parseIP proto rawPort ip host container = .ok p ↔
      (ip = [] ∨ parseIP ip) ∧ LooseRange container p.container ∧
        ((host = [] ∧ p.host = (0, 0)) ∨ LooseRange host p.host) ∧
        (host = [] ∨ p.container.2 - p.container.1 = p.host.2 - p.host.1) ∧
        validateProto (toLower proto) ∧ p.proto = toLower proto ∧ p.ip = ip ∧ p.hostPort = host := by
  simp only [checkParts, bind_eq_ok, ensure_eq_ok, readRange_iff, readHost_iff, exists_const, Bool.or_eq_true,
    beq_iff_eq, bne_iff_ne, pure, Except.pure, Except.ok.injEq]
  constructor
  · rintro ⟨hip, -, c, hc, h, hh, hlength, hproto, rfl⟩
    exact ⟨hip, hc, hh, hlength, hproto, rfl, rfl, rfl⟩
  · rintro ⟨hip, hc, hh, hlength, hvalid, hproto, rfl, rfl⟩
    refine ⟨hip, hc.ne_nil, p.container, hc, p.host, hh, hlength, hvalid, ?_⟩
    rw [← hproto]

/-- The tests that a value has to pass. -/
theorem parseSpec_iff : parseSpec parseIP s = .ok p ↔
      ∃ main container, Proto s main p.proto ∧ Parts main p.ip p.hostPort container ∧
        (p.ip = [] ∨ parseIP p.ip) ∧ LooseRange container p.container ∧
        ((p.hostPort = [] ∧ p.host = (0, 0)) ∨ LooseRange p.hostPort p.host) ∧
        (p.hostPort = [] ∨ p.container.2 - p.container.1 = p.host.2 - p.host.1) := by
  simp only [parseSpec, bind_eq_ok, partParser_iff]
  constructor
  · rintro ⟨parts, ⟨ip, host, container, hparts, rfl⟩, h⟩
    change checkParts parseIP _ _ ip host container = _ at h
    obtain ⟨hip, hc, hh, hlength, hvalid, hproto, rfl, rfl⟩ := checkParts_iff.mp h
    exact ⟨_, container, proto_iff.mp ⟨rfl, hproto.symm, hproto ▸ hvalid⟩, hparts, hip, hc, hh, hlength⟩
  · rintro ⟨main, container, hproto, hparts, hip, hc, hh, hlength⟩
    obtain ⟨rfl, hlower, hvalid⟩ := proto_iff.mpr hproto
    refine ⟨_, ⟨p.ip, p.hostPort, container, hparts, rfl⟩, ?_⟩
    change checkParts parseIP _ _ p.ip p.hostPort container = _
    exact checkParts_iff.mpr ⟨hip, hc, hh, hlength, hlower ▸ hvalid, hlower.symm, rfl, rfl⟩

theorem denotes_of_parseSpec (h : parseSpec parseIP s = .ok p) : Denotes LooseRange parseIP s p.spec := by
  obtain ⟨main, container, hproto, hparts, hip, hc, hh, hlength⟩ := parseSpec_iff.mp h
  refine ⟨main, p.hostPort, container, hproto, hparts, hip, ?_, hc, fun r hr => ?_⟩
  · by_cases hnil : p.hostPort = []
    · exact .inl ⟨hnil, if_pos hnil⟩
    · exact .inr ⟨p.host, hh.resolve_left fun h => hnil h.1, if_neg hnil⟩
  · have hsome : (if p.hostPort = [] then none else some p.host) = some r := hr
    split at hsome
    next => cases hsome
    next hnil =>
      cases hsome
      exact hlength.resolve_left hnil

variable {sp : Spec}

theorem parseSpec_of_denotes
    (h : Denotes LooseRange parseIP s sp) : ∃ p, parseSpec parseIP s = .ok p ∧ p.spec = sp := by
  obtain ⟨main, host, container, hproto, hparts, hip, hh, hc, hlength⟩ := h
  refine ⟨⟨sp.proto, sp.ip, host, sp.container, sp.host.getD (0, 0)⟩, ?_, ?_⟩
  · refine parseSpec_iff.mpr ⟨main, container, hproto, hparts, hip, hc, ?_, ?_⟩
    · obtain ⟨hnil, hnone⟩ | ⟨r, hr, hsome⟩ := hh
      · exact .inl ⟨hnil, by simp [hnone]⟩
      · exact .inr (by simpa only [hsome, Option.getD_some] using hr)
    · obtain ⟨hnil, -⟩ | ⟨r, hr, hsome⟩ := hh
      · exact .inl hnil
      · exact .inr (by simpa only [hsome, Option.getD_some] using hlength r hsome)
  · obtain ⟨hnil, hnone⟩ | ⟨r, hr, hsome⟩ := hh
    · simp only [Parsed.spec, hnil, if_true]
      rw [← hnone]
    · simp only [Parsed.spec, hr.ne_nil, if_false, hsome, Option.getD_some]
      rw [← hsome]

/-- The dashes of the last two parts. -/
theorem tidy_iff (hproto : Proto s main proto) (hparts : Parts main ip host container) :
    tidy s ↔ host.count (ch '-') ≤ 1 ∧ container.count (ch '-') ≤ 1 := by
  obtain ⟨rfl, -⟩ := proto_iff.mpr hproto
  obtain ⟨⟨hip, hhost, hcontainer⟩, ⟨hmain, -, rfl⟩ | ⟨hmain, -⟩ | hmain⟩ := hparts
  · rw [tidy, hmain, splitOn_eq_singleton hcontainer]
    simp
  · rw [tidy, splitOn_two.mpr ⟨⟨hhost, hcontainer⟩, hmain⟩]
    simp [and_comm]
  · rw [tidy, splitOn_three.mpr ⟨⟨hip, hhost, hcontainer⟩, hmain⟩]
    simp [and_comm]

/-- **A value that is taken has the form, unless a range has a second dash.** -/
theorem denotes_range_iff : Denotes Range parseIP s sp ↔ Denotes LooseRange parseIP s sp ∧ tidy s := by
  constructor
  · rintro ⟨main, host, container, hproto, hparts, hip, hh, hc, hlength⟩
    have hhost : HostRange LooseRange host sp.host ∧ host.count (ch '-') ≤ 1 := by
      obtain ⟨rfl, hnone⟩ | ⟨r, hr, hsome⟩ := hh
      · exact ⟨.inl ⟨rfl, hnone⟩, by simp⟩
      · exact ⟨.inr ⟨r, (range_iff.mp hr).1, hsome⟩, (range_iff.mp hr).2⟩
    exact ⟨⟨main, host, container, hproto, hparts, hip, hhost.1, (range_iff.mp hc).1, hlength⟩,
      (tidy_iff hproto hparts).mpr ⟨hhost.2, (range_iff.mp hc).2⟩⟩
  · rintro ⟨⟨main, host, container, hproto, hparts, hip, hh, hc, hlength⟩, htidy⟩
    obtain ⟨hhost, hcontainer⟩ := (tidy_iff hproto hparts).mp htidy
    refine ⟨main, host, container, hproto, hparts, hip, ?_, range_iff.mpr ⟨hc, hcontainer⟩, hlength⟩
    exact hh.imp id fun ⟨r, hr, hsome⟩ => ⟨r, range_iff.mpr ⟨hr, hhost⟩, hsome⟩

/-! ## The maps -/

/-- The maps have these bindings. -/
def Bound (m : PortMaps) (ps : List (Bytes × PortBinding)) : Prop :=
  (∀ port, m.bindings.get port = listed ps port) ∧
    ∀ port, m.exposed.get port = (m.bindings.get port).map fun _ => ()

theorem listed_append_self (ps : List (Bytes × PortBinding)) (port : Bytes) (b : PortBinding) :
    listed (ps ++ [(port, b)]) port = some ((listed ps port).getD [] ++ [b]) := by
  rw [listed, listed, filter_append, map_append]
  cases h : (ps.filter fun p => p.1 == port).map Prod.snd with
  | nil => simp
  | cons a l => simp

theorem listed_append_ne (ps : List (Bytes × PortBinding)) {port port' : Bytes} (h : port' ≠ port) (b : PortBinding) :
    listed (ps ++ [(port, b)]) port' = listed ps port' := by
  have hfilter : [(port, b)].filter (fun p => p.1 == port') = [] := by simp [Ne.symm h]
  rw [listed, listed, filter_append, hfilter, append_nil]

theorem LooseRange.le (h : LooseRange t r) : r.1 ≤ r.2 ∧ r.2 ≤ 65535 := by
  obtain (⟨h, heq⟩ | ⟨u, v, -, -, hv, hle⟩) | ⟨u, v, w, -, -, hv, hle⟩ := h
  · rw [heq]
    exact ⟨Nat.le_refl _, h.2.2.2⟩
  · exact ⟨hle, hv.2.2.2⟩
  · exact ⟨hle, hv.2.2.2⟩

theorem newPort_decimal (proto : Bytes) (hn : n ≤ 65535) :
    newPort proto (decimal n) = .ok (decimal n ++ text "/" ++ proto) := by
  have hne : decimal n ≠ [] := by
    rw [decimal]
    split <;> simp
  have hnumeral : parseUint (decimal n) = some n := by
    rw [parseUint, value_decimal, if_pos ⟨hne, all_eq_true.mpr (isDigit_decimal n), hn⟩]
  rw [newPort, parsePort, if_neg fun h => hne (length_eq_zero_iff.mp h), hnumeral]

/-- The binding of the `i`-th port. -/
def Parsed.pair (p : Parsed) (i : Nat) : Bytes × PortBinding :=
  (decimal (p.container.1 + i) ++ text "/" ++ p.proto,
    ⟨p.ip, if 0 < p.hostPort.length then decimal (p.host.1 + i) else p.hostPort⟩)

variable {m : PortMaps} {ps : List (Bytes × PortBinding)}

theorem bindPort_bound {i : Nat} (hi : p.container.1 + i ≤ 65535) (h : Bound m ps) :
    ∃ m', bindPort p m i = .ok m' ∧ Bound m' (ps ++ [p.pair i]) := by
  simp only [bindPort, newPort_decimal p.proto hi]
  refine ⟨_, rfl, fun port => ?_, fun port => ?_⟩
  · by_cases hport : port = decimal (p.container.1 + i) ++ text "/" ++ p.proto
    · subst hport
      rw [get_set_self, Parsed.pair, listed_append_self, h.1]
    · rw [get_set_ne _ hport, Parsed.pair, listed_append_ne ps hport, h.1]
  · by_cases hport : port = decimal (p.container.1 + i) ++ text "/" ++ p.proto
    · subst hport
      rw [get_set_self, Option.map_some]
      split
      next => rw [get_set_self]
      next hexposed =>
        obtain ⟨u, hu⟩ := Option.ne_none_iff_exists'.mp hexposed
        exact hu
    · rw [get_set_ne _ hport, ← h.2]
      split
      next => rw [get_set_ne _ hport]
      next => rfl

theorem pairs_spec (p : Parsed) : p.spec.pairs = (range (p.container.2 - p.container.1 + 1)).map p.pair := by
  refine map_congr_left fun k _ => ?_
  by_cases hnil : p.hostPort = []
  · simp [Parsed.pair, Parsed.spec, hnil]
  · have hlength : 0 < p.hostPort.length := length_pos_iff.mpr hnil
    simp [Parsed.pair, Parsed.spec, hnil, hlength]

theorem bindPorts_bound (hle : p.container.1 ≤ p.container.2) (hp : p.container.2 ≤ 65535) (h : Bound m ps) :
    ∃ m', bindPorts p m = .ok m' ∧ Bound m' (ps ++ p.spec.pairs) := by
  rw [pairs_spec, bindPorts]
  have hrange : ∀ i ∈ range (p.container.2 - p.container.1 + 1), p.container.1 + i ≤ 65535 := by
    intro i hi
    have := mem_range.mp hi
    omega
  generalize range (p.container.2 - p.container.1 + 1) = is at hrange
  induction is generalizing m ps with
  | nil => exact ⟨m, rfl, by rwa [map_nil, append_nil]⟩
  | cons i is ih =>
    obtain ⟨m₁, hbind, hbound⟩ := bindPort_bound (hrange i mem_cons_self) h
    obtain ⟨m₂, hrest, hbound⟩ := ih hbound fun j hj => hrange j (mem_cons_of_mem i hj)
    refine ⟨m₂, ?_, ?_⟩
    · rw [foldlM_cons, hbind]
      exact hrest
    · rwa [map_cons, ← singleton_append, ← append_assoc]

/-! ## All values -/

variable {specs : List Bytes}

theorem parsePortSpecs_ok {sps : List Spec}
    (h : List.Forall₂ (Denotes LooseRange parseIP) specs sps) :
    ∃ m, parsePortSpecs parseIP specs = .ok m ∧ Bound m (sps.flatMap Spec.pairs) := by
  have hfold : ∀ (m : PortMaps) (ps : List (Bytes × PortBinding)), Bound m ps →
      ∃ m', specs.foldlM (fun m rawPort => parseSpec parseIP rawPort >>= fun p => bindPorts p m) m = .ok m' ∧
        Bound m' (ps ++ sps.flatMap Spec.pairs) := by
    induction h with
    | nil => exact fun m ps hm => ⟨m, rfl, by rwa [flatMap_nil, append_nil]⟩
    | @cons s sp specs sps hs _ ih =>
      intro m ps hm
      obtain ⟨p, hp, rfl⟩ := parseSpec_of_denotes hs
      obtain ⟨-, container, -, -, -, hc, -⟩ := parseSpec_iff.mp hp
      obtain ⟨m₁, hround, hbound⟩ := bindPorts_bound hc.le.1 hc.le.2 hm
      obtain ⟨m₂, hrest, hbound⟩ := ih m₁ _ hbound
      refine ⟨m₂, ?_, ?_⟩
      · rw [foldlM_cons, hp]
        exact bind_eq_ok.mpr ⟨m₁, hround, hrest⟩
      · rwa [flatMap_cons, ← append_assoc]
  exact hfold ⟨.empty, .empty⟩ [] ⟨fun port => rfl, fun port => rfl⟩

theorem denotes_of_parsePortSpecs
    (h : parsePortSpecs parseIP specs = .ok m) : ∀ s ∈ specs, ∃ sp, Denotes LooseRange parseIP s sp := by
  rw [parsePortSpecs] at h
  generalize (⟨.empty, .empty⟩ : PortMaps) = start at h
  induction specs generalizing start with
  | nil => exact nofun
  | cons s specs ih =>
    rw [foldlM_cons] at h
    obtain ⟨m₁, hround, hrest⟩ := bind_eq_ok.mp h
    obtain ⟨p, hp, -⟩ := bind_eq_ok.mp hround
    exact forall_mem_cons.mpr ⟨⟨p.spec, denotes_of_parseSpec hp⟩, ih m₁ hrest⟩

theorem exists_forall₂ {α β : Type} {P : α → β → Prop} {l : List α} (h : ∀ a ∈ l, ∃ b, P a b) :
    ∃ bs, List.Forall₂ P l bs := by
  induction l with
  | nil => exact ⟨[], .nil⟩
  | cons a l ih =>
    obtain ⟨b, hb⟩ := h a mem_cons_self
    obtain ⟨bs, hbs⟩ := ih fun x hx => h x (mem_cons_of_mem a hx)
    exact ⟨b :: bs, .cons hb hbs⟩

/-- **Port specifications are parsed exactly**, exactly if one of them is refused in any case or no range has a
second dash. -/
theorem parsePortSpecs_exact_iff (parseIP : Bytes → Bool) (specs : List Bytes) :
    Exact parseIP specs (parsePortSpecs parseIP specs) ↔
      (∃ s ∈ specs, ¬ ∃ sp, Denotes LooseRange parseIP s sp) ∨ ∀ s ∈ specs, tidy s = true := by
  constructor
  · rintro ⟨hok, -⟩
    by_cases hloose : ∀ s ∈ specs, ∃ sp, Denotes LooseRange parseIP s sp
    · obtain ⟨sps, hsps⟩ := exists_forall₂ hloose
      obtain ⟨m, hm, -⟩ := parsePortSpecs_ok hsps
      rw [hm] at hok
      refine .inr fun s hs => ?_
      obtain ⟨sp, hsp⟩ := hok.mp rfl s hs
      exact (denotes_range_iff.mp hsp).2
    · simp only [not_forall] at hloose
      obtain ⟨s, hs, hno⟩ := hloose
      exact .inl ⟨s, hs, hno⟩
  · rintro (⟨s, hs, hno⟩ | htidy)
    · cases hresult : parsePortSpecs parseIP specs with
      | ok m => exact absurd (denotes_of_parsePortSpecs hresult s hs) hno
      | error e =>
        refine ⟨⟨nofun, fun hall => ?_⟩, nofun⟩
        obtain ⟨sp, hsp⟩ := hall s hs
        exact absurd ⟨sp, (denotes_range_iff.mp hsp).1⟩ hno
    · have hexact : (∀ s ∈ specs, ∃ sp, Denotes LooseRange parseIP s sp) →
          ∀ s ∈ specs, ∃ sp, Denotes Range parseIP s sp := by
        intro hall s hs
        obtain ⟨sp, hsp⟩ := hall s hs
        exact ⟨sp, denotes_range_iff.mpr ⟨hsp, htidy s hs⟩⟩
      have hbound : ∀ sps, List.Forall₂ (Denotes Range parseIP) specs sps →
          ∃ m, parsePortSpecs parseIP specs = .ok m ∧ Bound m (sps.flatMap Spec.pairs) := fun sps hsps =>
        parsePortSpecs_ok (hsps.imp fun _ _ h => (denotes_range_iff.mp h).1)
      refine ⟨⟨fun hok => ?_, fun hall => ?_⟩, fun m hm => ?_⟩
      · cases hresult : parsePortSpecs parseIP specs with
        | ok m => exact hexact (denotes_of_parsePortSpecs hresult)
        | error e =>
          rw [hresult] at hok
          cases hok
      · obtain ⟨sps, hsps⟩ := exists_forall₂ hall
        obtain ⟨m, hm, -⟩ := hbound sps hsps
        rw [hm]
        rfl
      · obtain ⟨sps, hsps⟩ := exists_forall₂ (hexact (denotes_of_parsePortSpecs hm))
        obtain ⟨m', hm', hbindings, hexposed⟩ := hbound sps hsps
        cases hm.symm.trans hm'
        refine ⟨sps, hsps, hbindings, fun port => ?_⟩
        simp [GoMap.mem_keys, hexposed]

/-- A range of three numbers is taken for one of two. -/
theorem parsePortSpecs_second_dash :
    (parsePortSpecs (fun _ => false) [text "1-2-3"]).isOk = true ∧
      ¬ Exact (fun _ => false) [text "1-2-3"] (parsePortSpecs (fun _ => false) [text "1-2-3"]) := by
  have hok : (parsePortSpecs (fun _ => false) [text "1-2-3"]).isOk = true := by decide +kernel
  refine ⟨hok, fun hexact => ?_⟩
  obtain ⟨sp, hsp⟩ := hexact.1.mp hok _ (mem_singleton_self _)
  exact absurd (denotes_range_iff.mp hsp).2 (by decide +kernel)

end DockerEngine.Ports
