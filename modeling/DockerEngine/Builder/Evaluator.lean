import DockerEngine.Builder.Env
import DockerEngine.Lib.Sorting
import DockerEngine.Ports.Specs

/-!
# The evaluator of Dockerfiles

The instructions of a Dockerfile change the configuration that the builder holds, and each of them but `FROM` commits
an image with it. `commit` makes a container for this, with a command that does nothing; `daemon.Create` merges the
configuration of the parent image into the builder's own while it does so. `FROM` takes the configuration of the image
that it names, and evaluates the instructions that the image has for those that build on it.

What the daemon does with layers is given (`Daemon`): each step is a function of the image and the configuration that
it sees. The build cache is off. Texts are bytes. Of a configuration the fields are here that instructions set; the
others are left out, and so are what is printed, the flags of the container and the identifiers of images.
-/

namespace DockerEngine.Builder.Evaluator

open Bytes Outcome Ports

/-! ## Configurations -/

/-- `Config`. `Cmd` and `Entrypoint` are pointers, nil in a configuration that has none. -/
structure Config where
  user : Bytes
  exposedPorts : GoMap Bytes Unit
  env : List Bytes
  cmd : Option (List Bytes)
  volumes : GoMap Bytes Unit
  workingDir : Bytes
  entrypoint : Option (List Bytes)
  onBuild : List Bytes
  labels : GoMap Bytes Bytes

/-- `&runconfig.Config{}`. -/
def Config.zero : Config where
  user := []
  exposedPorts := .empty
  env := []
  cmd := none
  volumes := .empty
  workingDir := []
  entrypoint := none
  onBuild := []
  labels := .empty

/-- `Len` of a command or an entrypoint. -/
def len (p : Option (List Bytes)) : Nat := (p.getD []).length

/-- The ports or volumes of both maps. -/
def mergeKeys (user image : GoMap Bytes Unit) : GoMap Bytes Unit :=
  if user.size = 0 then image
  else image.keys.foldl (fun m k => if (m.get k).isSome then m else m.set k ()) user

/-- The variables of the image that have no value yet are added. -/
def mergeEnv (user image : List Bytes) : List Bytes :=
  if user = [] then image
  else image.foldl (fun env e => if env.any (fun u => nameOf u == nameOf e) then env else env ++ [e]) user

/-- `Merge`. -/
def merge (userConf imageConf : Config) : Config where
  user := if userConf.user = [] then imageConf.user else userConf.user
  exposedPorts := mergeKeys userConf.exposedPorts imageConf.exposedPorts
  env := mergeEnv userConf.env imageConf.env
  cmd := if len userConf.entrypoint = 0 ∧ len userConf.cmd = 0 then imageConf.cmd else userConf.cmd
  volumes := mergeKeys userConf.volumes imageConf.volumes
  workingDir := if userConf.workingDir = [] then imageConf.workingDir else userConf.workingDir
  entrypoint := if userConf.entrypoint = none then imageConf.entrypoint else userConf.entrypoint
  onBuild := userConf.onBuild
  labels := userConf.labels

/-! ## The builder -/

/-- `Image`, with its contents in place of the layers. -/
structure Image (L : Type) where
  config : Option Config
  author : Bytes
  layer : L

/-- What `image` and `noBaseImage` say. The second is looked at only if there is no image. -/
inductive Base (L : Type) where
  | unset
  | scratch
  | image (img : Image L)

def Base.image? {L : Type} : Base L → Option (Image L)
  | .image img => some img
  | _ => none

/-- `builder`. -/
structure BuilderState (L : Type) where
  base : Base L
  maintainer : Bytes
  cmdSet : Bool
  config : Config

/-- The builder at the beginning of `Run`. -/
def BuilderState.new {L : Type} : BuilderState L where
  base := .unset
  maintainer := []
  cmdSet := false
  config := .zero

/-- The instructions `ADD` and `COPY`, as they are made. -/
structure CopyCall where
  name : Bytes
  allowRemote : Bool
  allowDecompression : Bool
  args : List Bytes
  workingDir : Bytes
  deriving DecidableEq, Repr

/-- The daemon, the context of the build, and functions of the Go library. -/
structure Daemon (L : Type) where
  /-- `LookupImage`, and `pullImage` if it is needed. -/
  lookup : Bytes → Option (Image L)
  /-- A configuration that was written is read from the graph. -/
  stored : Config → Config
  /-- The contents of no image. -/
  empty : L
  /-- `Create`, `Mount` and `Commit` succeed for an image and a merged configuration. -/
  creates : Option (Image L) → Config → Bool
  /-- The contents after the command of a configuration was run, if it returned zero. -/
  run : L → Config → Option L
  /-- The hash of what is copied. -/
  hash : CopyCall → Option Bytes
  /-- The contents after it was copied. -/
  copy : L → CopyCall → Option L
  /-- `net.ParseIP` gives an address. -/
  parseIP : Bytes → Bool
  /-- `path.Join`. -/
  join : List Bytes → Bytes

/-- The errors of a build. -/
inductive BuildErr where
  | dispatch (e : DispatchErr)
  | flags (e : EnvErr)
  /-- "%s requires at least one argument" -/
  | noArguments (name : Bytes)
  /-- "%s requires exactly one argument" -/
  | oneArgument (name : Bytes)
  /-- "FROM requires one argument" -/
  | fromArgument
  /-- "%s requires at least two arguments" -/
  | twoArguments (name : Bytes)
  /-- "Bad input to %s, too many args" -/
  | tooMany (name : Bytes)
  /-- "Please provide a source image with `from` prior to %s" -/
  | noSource
  /-- "No command specified" -/
  | noCommand
  /-- "Chaining ONBUILD via `ONBUILD ONBUILD` isn't allowed" -/
  | chained
  /-- "%s isn't allowed as an ONBUILD trigger" -/
  | trigger (name : Bytes)
  /-- "Volume specified can not be an empty string" -/
  | emptyVolume
  /-- "No image was generated. Is your Dockerfile empty?" -/
  | noImage
  | ports (e : PortErr)
  | parse (e : ParseErr)
  /-- The image is not found. -/
  | lookup (name : Bytes)
  /-- The daemon makes no container. -/
  | create
  /-- "The command '%s' returned a non-zero code: %d" -/
  | run
  /-- The sources are not there, or cannot be copied. -/
  | copy
  /-- A nil pointer is followed. -/
  | nilPointer
  deriving DecidableEq, Repr

variable {L : Type}

abbrev Result : Type → Type := Except BuildErr

/-! ## Committing -/

/-- The contents that a container starts with. -/
def BuilderState.contents (b : BuilderState L) (d : Daemon L) : L := (b.base.image?.map Image.layer).getD d.empty

variable (go : Go) (d : Daemon L) (b : BuilderState L) (call : Call)

/-- The configuration of the image is merged into another one. -/
def mergeImage (img : Option (Image L)) (c : Config) : Config :=
  match img.bind Image.config with
  | some ic => merge c (d.stored ic)
  | none => c

/-- `mergeAndVerifyConfig`. -/
def mergeAndVerifyConfig (img : Option (Image L)) (c : Config) : Except BuildErr Config :=
  let c' := mergeImage d img c
  if len c'.entrypoint = 0 ∧ len c'.cmd = 0 then .error .noCommand else .ok c'

/-- `Daemon.Create`: the configuration of the builder is the merged one then. -/
def daemonCreate : Result (BuilderState L) := do
  let c ← mergeAndVerifyConfig d b.base.image? b.config
  ensure (d.creates b.base.image? c) .create
  return { b with config := c }

/-- There was a `FROM`. -/
def Base.isSet : Base L → Bool
  | .unset => false
  | _ => true

/-- `create`. -/
def create : Result (BuilderState L) := do
  ensure b.base.isSet .noSource
  daemonCreate d b

def BuilderState.setCmd (cmd : Option (List Bytes)) : BuilderState L :=
  { b with config := { b.config with cmd := cmd } }

/-- `commit` of a container with these contents. The configuration gets the command `autoCmd` back. -/
def commitContainer (autoCmd : Option (List Bytes)) (layer : L) : Result (BuilderState L) := do
  ensure b.base.isSet .noSource
  let b := b.setCmd autoCmd
  return { b with base := .image ⟨some b.config, b.maintainer, layer⟩ }

/-- The command of a container that is committed and not run. -/
def nop (comment : Bytes) : List Bytes := [text "/bin/sh", text "-c", text "#(nop) " ++ comment]

/-- `commit` without a container. All who call it give the command of the configuration as `autoCmd`. -/
def commit (comment : Bytes) : Result (BuilderState L) := do
  ensure b.base.isSet .noSource
  let cmd := b.config.cmd
  let b ← create d (b.setCmd (some (nop comment)))
  commitContainer b cmd (b.contents d)

/-! ## The instructions -/

/-- `BuilderFlags.Parse`. No instruction has flags. -/
def checkFlags : Except BuildErr Unit := (parseFlags call.flags).mapError .flags

section

variable (name : Bytes) (args : List Bytes)

/-- `fmt.Sprintf("%v", args)`. -/
def showList : Bytes := text "[" ++ (text " ").intercalate args ++ text "]"

/-- `handleJSONArgs`. -/
def handleJSONArgs (json : Bool) : List Bytes :=
  if args = [] then [] else if json then args else [(text " ").intercalate args]

/-- The arguments of `RUN` and `CMD`. -/
def shellArgs (json : Bool) : List Bytes :=
  if json then handleJSONArgs args json else [text "/bin/sh", text "-c"] ++ handleJSONArgs args json

/-- The arguments of `ENV` and `LABEL` come in pairs. -/
def checkPairs : Except BuildErr Unit := do
  ensure (args ≠ []) (.noArguments name)
  ensure (args.length % 2 = 0) (.tooMany name)

/-- The comment of `ENV` and `LABEL`. -/
def showPairs (ps : List (Bytes × Bytes)) : Bytes := name ++ ps.flatMap fun p => text " " ++ p.1 ++ text "=" ++ p.2

/-- `env`. -/
def env (d : Daemon L) (b : BuilderState L) (call : Call) : Result (BuilderState L) := do
  checkPairs (text "ENV") call.args
  checkFlags call
  let ps := pairsOf call.args
  commit d { b with config := { b.config with env := setAll ps b.config.env } } (showPairs (text "ENV") ps)

/-- `maintainer`. -/
def maintainer (d : Daemon L) (b : BuilderState L) (call : Call) : Result (BuilderState L) :=
  match call.args with
  | [name] => do
    checkFlags call
    commit d { b with maintainer := name } (text "MAINTAINER " ++ name)
  | _ => .error (.oneArgument (text "MAINTAINER"))

/-- `label`. -/
def label : Result (BuilderState L) := do
  checkPairs (text "LABEL") call.args
  checkFlags call
  let ps := pairsOf call.args
  let labels := ps.foldl (fun m p => m.set p.1 p.2) b.config.labels
  commit d { b with config := { b.config with labels := labels } } (showPairs (text "LABEL") ps)

/-- `runContextCommand`. -/
def runContextCommand (call : CopyCall) : Result (BuilderState L) := do
  let cmd := b.config.cmd
  match d.hash call with
  | none => .error .copy
  | some hash =>
    let dest := call.args.getLast?.getD []
    let b ← daemonCreate d (b.setCmd (some (nop (call.name ++ text " " ++ hash ++ text " in " ++ dest))))
    match d.copy (b.contents d) call with
    | none => .error .copy
    | some layer => commitContainer b cmd layer

/-- `add` and `dispatchCopy`. -/
def copyFiles (allowed : Bool) (d : Daemon L) (b : BuilderState L) (call : Call) : Result (BuilderState L) := do
  ensure (2 ≤ call.args.length) (.twoArguments name)
  checkFlags call
  runContextCommand d b ⟨name, allowed, allowed, call.args, b.config.workingDir⟩

/-- `add`. -/
def add : Result (BuilderState L) := copyFiles (text "ADD") true d b call

/-- `dispatchCopy`. -/
def dispatchCopy : Result (BuilderState L) := copyFiles (text "COPY") false d b call

/-- White space of a regular expression. -/
def isSpaceByte (c : UInt8) : Bool := c == 9 || c == 10 || c == 12 || c == 13 || c == 32

/-- The text without `(?i)^\s*ONBUILD\s*`. -/
def dropOnbuild (original : Bytes) : Bytes :=
  let rest := original.dropWhile isSpaceByte
  if (rest.take 7).map (fun c => if 97 ≤ c && c ≤ 122 then c - 32 else c) = text "ONBUILD" then
    (rest.drop 7).dropWhile isSpaceByte
  else original

/-- Some instructions are no triggers. The error has the name as it is `shown`. -/
def checkTrigger (shown : Bytes) : Except BuildErr Unit := do
  ensure (name ≠ text "ONBUILD") .chained
  ensure (name ≠ text "MAINTAINER" ∧ name ≠ text "FROM") (.trigger shown)

/-- `onbuild`. -/
def onbuild : Result (BuilderState L) :=
  match call.args with
  | [] => .error (.noArguments (text "ONBUILD"))
  | name :: _ => do
    checkFlags call
    let triggerInstruction := go.toUpper (trimSpace name)
    checkTrigger triggerInstruction triggerInstruction
    let original := dropOnbuild call.original
    commit d { b with config := { b.config with onBuild := b.config.onBuild ++ [original] } }
      (text "ONBUILD " ++ original)

/-- `workdir`. -/
def workdir : Result (BuilderState L) :=
  match call.args with
  | [dir] => do
    checkFlags call
    let dir := if dir.head? = some (ch '/') then dir else d.join [text "/", b.config.workingDir, dir]
    commit d { b with config := { b.config with workingDir := dir } } (text "WORKDIR " ++ dir)
  | _ => .error (.oneArgument (text "WORKDIR"))

/-- `runconfig.Parse` of an image and the arguments of a command. -/
def parseRun : Config := { Config.zero with cmd := if args = [] then none else some args }

/-- `run`. -/
def run : Result (BuilderState L) := do
  ensure b.base.isSet .noSource
  checkFlags call
  let config := parseRun (shellArgs call.args call.json)
  let cmd := b.config.cmd
  let b ← create d { b with config := merge { b.config with cmd := config.cmd } config }
  match d.run (b.contents d) b.config with
  | none => .error .run
  | some layer => commitContainer b cmd layer

/-- `cmd`. -/
def cmd : Result (BuilderState L) := do
  checkFlags call
  let args := shellArgs call.args call.json
  let b ← commit d (b.setCmd (some args)) (text "CMD " ++ showList (args.map go.quote))
  return { b with cmdSet := b.cmdSet || call.args != [] }

/-- The entrypoint of an instruction. -/
def entrypointOf (json : Bool) : Option (List Bytes) :=
  if json then some (handleJSONArgs args json)
  else
    match handleJSONArgs args json with
    | [] => none
    | word :: _ => some [text "/bin/sh", text "-c", word]

/-- `fmt.Sprintf("%q", entrypoint)`. -/
def showEntrypoint : Option (List Bytes) → Bytes
  | none => text "%!q(*runconfig.Entrypoint=<nil>)"
  | some parts => text "&\x7b" ++ showList (parts.map go.quote) ++ text "\x7d"

/-- `entrypoint`. Without a `CMD` of its own a build has no command. -/
def entrypoint (go : Go) (d : Daemon L) (b : BuilderState L) (call : Call) : Result (BuilderState L) := do
  checkFlags call
  let parts := entrypointOf call.args call.json
  let cmd := if b.cmdSet then b.config.cmd else none
  commit d { b with config := { b.config with entrypoint := parts, cmd := cmd } }
    (text "ENTRYPOINT " ++ showEntrypoint go parts)

/-- `expose`. -/
def expose : Result (BuilderState L) := do
  ensure (call.args ≠ []) (.noArguments (text "EXPOSE"))
  checkFlags call
  let maps ← (parsePortSpecs d.parseIP call.args).mapError .ports
  let ports := maps.exposed.keys
  let exposed := ports.foldl (fun m p => if (m.get p).isSome then m else m.set p ()) b.config.exposedPorts
  let sorted := Sorting.insertionSort (fun p q => decide (p < q)) ports
  commit d { b with config := { b.config with exposedPorts := exposed } }
    (text "EXPOSE " ++ (text " ").intercalate sorted)

/-- `user`. -/
def user (d : Daemon L) (b : BuilderState L) (call : Call) : Result (BuilderState L) :=
  match call.args with
  | [name] => do
    checkFlags call
    commit d { b with config := { b.config with user := name } } (text "USER " ++ showList [name])
  | _ => .error (.oneArgument (text "USER"))

/-- `volume`. -/
def volume : Result (BuilderState L) := do
  ensure (call.args ≠ []) (.noArguments (text "VOLUME"))
  checkFlags call
  let paths := call.args.map trimSpace
  ensure (paths.all fun v => v ≠ []) .emptyVolume
  let volumes := paths.foldl (fun m v => m.set v ()) b.config.volumes
  commit d { b with config := { b.config with volumes := volumes } } (text "VOLUME " ++ showList call.args)

/-! ## Dispatching -/

/-- The instructions of `evaluateTable`. -/
inductive Instruction where
  | env
  | label
  | maintainer
  | add
  | copy
  | fromImage
  | onbuild
  | workdir
  | run
  | cmd
  | entrypoint
  | expose
  | volume
  | user
  deriving DecidableEq, Repr

/-- The instruction with a name. -/
def instructionOf : Option Instruction :=
  [(text "env", .env), (text "label", .label), (text "maintainer", .maintainer), (text "add", .add),
    (text "copy", .copy), (text "from", .fromImage), (text "onbuild", .onbuild), (text "workdir", .workdir),
    (text "run", .run), (text "cmd", .cmd), (text "entrypoint", .entrypoint), (text "expose", .expose),
    (text "volume", .volume), (text "user", Instruction.user)].lookup name

/-- An instruction is evaluated, `FROM` by the function that is given. -/
def perform (onFrom : BuilderState L → Call → Result (BuilderState L)) (go : Go) (d : Daemon L) (b : BuilderState L)
    (call : Call) : Result (BuilderState L) :=
  match instructionOf call.cmd with
  | some .env => env d b call
  | some .label => label d b call
  | some .maintainer => maintainer d b call
  | some .add => add d b call
  | some .copy => dispatchCopy d b call
  | some .fromImage => onFrom b call
  | some .onbuild => onbuild go d b call
  | some .workdir => workdir d b call
  | some .run => run d b call
  | some .cmd => cmd go d b call
  | some .entrypoint => entrypoint go d b call
  | some .expose => expose d b call
  | some .volume => volume d b call
  | some .user => user d b call
  | none => .error (.dispatch (.unknown (go.toUpper call.cmd)))

/-- The call that `dispatch` comes to is made. -/
def performCall (onFrom : BuilderState L → Call → Result (BuilderState L)) (go : Go) (d : Daemon L)
    (b : BuilderState L) : Option (Except DispatchErr Call) → Result (BuilderState L)
  | none => .error .nilPointer
  | some (.error e) => .error (.dispatch e)
  | some (.ok call) => perform onFrom go d b call

/-- `dispatch` with the evaluator that it calls. -/
def dispatchWith (onFrom : BuilderState L → Call → Result (BuilderState L)) (go : Go) (d : Daemon L) (stepN : Nat)
    (b : BuilderState L) (ast : Node) : Result (BuilderState L) :=
  performCall onFrom go d b (dispatch go b.config.env stepN ast)

/-! ## `FROM` -/

/-- `NoBaseImageSpecifier`. -/
def noBaseImageSpecifier : Bytes := text "scratch"

/-- `"PATH=" + DefaultPathEnv`. -/
def defaultPathEnv : Bytes := text "PATH=/usr/local/sbin:/usr/local/bin:/usr/sbin:/usr/bin:/sbin:/bin"

/-- An instruction of a trigger. `FROM` does not pass the check. -/
def triggerStep : Option Node × Nat → Result (BuilderState L)
  | (none, _) => .error .nilPointer
  | (some n, i) => do
    checkTrigger (go.toUpper n.value) n.value
    dispatchWith (fun _ call => .error (.trigger call.cmd)) go d i b n

/-- The instructions of a trigger. -/
def runTrigger (step : Bytes) : Result (BuilderState L) := do
  let ast ← (parse go step).mapError .parse
  ast.children.zipIdx.foldlM (triggerStep go d) b

/-- The configuration of an image has a path. -/
def Config.withPath (c : Config) : Config := { c with env := if c.env = [] then [defaultPathEnv] else c.env }

/-- `processImageFrom`. -/
def processImageFrom (img : Image L) : Result (BuilderState L) :=
  let config := ((img.config.map d.stored).getD b.config).withPath
  let onBuildTriggers := config.onBuild
  onBuildTriggers.foldlM (runTrigger go d) { b with base := .image img, config := { config with onBuild := [] } }

/-- The image of a name is taken. -/
def fromName : Result (BuilderState L) :=
  if name = noBaseImageSpecifier then .ok { b with base := .scratch }
  else
    match d.lookup name with
    | none => .error (.lookup name)
    | some img => processImageFrom go d b img

end

/-- `from`. -/
def fromImage : Result (BuilderState L) :=
  match call.args with
  | [name] => do
    checkFlags call
    fromName go d b name
  | _ => .error .fromArgument

/-! ## Builds -/

/-- The loop of `Run`. -/
def steps (go : Go) (d : Daemon L) : Nat → BuilderState L → List Node → Result (BuilderState L)
  | _, b, [] => .ok b
  | stepN, b, n :: ns => do
    let b ← dispatchWith (fromImage go d) go d stepN b n
    steps go d (stepN + 1) b ns

/-- The end of `Run`. -/
def BuilderState.result : Result (Image L) :=
  match b.base with
  | .image img => .ok img
  | _ => .error .noImage

/-- `Run`, for the instructions of a Dockerfile. -/
def build (dockerfile : List Node) : Result (Image L) := do
  let b ← steps go d 0 .new dockerfile
  b.result

end DockerEngine.Builder.Evaluator
