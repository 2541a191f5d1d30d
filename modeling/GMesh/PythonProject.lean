import GMesh.KeepFirst
import GMesh.ResolutionDelta
import GMesh.TextSplits

namespace GMesh

inductive ContainerInfo
  | module (key : WireText) (parent : Option WireText) (name : WireText)
  | package (key : WireText) (parent : Option WireText) (name : WireText)
  | stub (key : WireText)
  | orphan (key : WireText)
  deriving DecidableEq, Repr

namespace ContainerInfo

def key : ContainerInfo → WireText
  | module key _ _ | package key _ _ | stub key | orphan key => key

/-- A stub keeps nothing but the key of the module that it describes. -/
def stubbed : ContainerInfo → ContainerInfo
  | module key _ _ | package key _ _ => stub key
  | other => other

end ContainerInfo

def dotted (segments : List WireText) : WireText := ['.'].intercalate segments

def parentKey (key : WireText) : Option WireText := (rsplitOnce '.' key).map Prod.fst

variable (path : WireText)

def orphanKey : WireText := "orphan:".toList ++ path

def fileExtension : Option WireText :=
  ((path.splitOn '/').getLast?.bind (rsplitOnce '.')).bind fun parts =>
    if parts.2.isEmpty then none else some ('.' :: parts.2.map Char.toLower)

def fileStem (name : WireText) : WireText :=
  ((name.dropSuffix? ".py".toList).or (name.dropSuffix? ".pyi".toList)).getD name

def isUnder (dir path : WireText) : Bool := dir.isEmpty || (dir ++ ['/']).isPrefixOf path

/-- The most specific root that contains the file. Roots come deepest first. -/
def owningRoot (roots : List WireText) (path : WireText) : Option WireText := roots.find? (isUnder · path)

def relativeTo (root path : WireText) : WireText := if root.isEmpty then path else path.drop (root.length + 1)

/-- The package of an `__init__` file, or the module of another one. -/
def containerOf (dirs : List WireText) (stem : WireText) : ContainerInfo :=
  if stem = "__init__".toList then
    match dirs.getLast? with
    | none => .orphan (orphanKey path)
    | some name => .package (dotted dirs) (if dirs.length > 1 then some (dotted dirs.dropLast) else none) name
  else .module (dotted (dirs ++ [stem])) (if dirs.isEmpty then none else some (dotted dirs)) stem

def containerInfoFor (root : WireText) : ContainerInfo :=
  let segments := (relativeTo root path).splitOn '/'
  let info := containerOf path segments.dropLast (fileStem (segments.getLast?.getD []))
  if fileExtension path = some ".pyi".toList then info.stubbed else info

structure PyProject where
  roots : List WireText
  files : List WireText
  deriving DecidableEq, Repr

namespace PyProject

variable (p : PyProject)

def containerFor (path : WireText) : ContainerInfo :=
  match owningRoot p.roots path with
  | some root => containerInfoFor path root
  | none => .orphan (orphanKey path)

end PyProject

def prefixesFrom (built : WireText) : List WireText → List WireText
  | [] => []
  | segment :: rest =>
    let next := (if built.isEmpty then [] else built ++ ['.']) ++ segment
    next :: prefixesFrom next rest

def keyPrefixes : ContainerInfo → List WireText
  | .orphan _ => []
  | info => prefixesFrom [] (info.key.splitOn '.')

namespace PyProject

variable (p : PyProject)

def containers : List WireText := (p.files.flatMap fun path => keyPrefixes (p.containerFor path)).dedup

def hasContainer (key : WireText) : Bool := p.containers.contains key

end PyProject

inductive FileRole
  | module | package | stub | orphan
  deriving DecidableEq, Repr

structure ModuleCtx where
  key : WireText
  parent : Option WireText
  package : Option WireText
  selfName : Option WireText
  role : FileRole
  deriving DecidableEq, Repr

namespace ModuleCtx

def forFile : ContainerInfo → ModuleCtx
  | .module key parent name => ⟨key, parent, parent, some name, .module⟩
  | .package key parent name => ⟨key, parent, some key, some name, .package⟩
  | .stub key => ⟨key, parentKey key, parentKey key, none, .stub⟩
  | .orphan key => ⟨key, none, none, none, .orphan⟩

/-- A stub declares nothing, and its imports are not read. -/
def declares (m : ModuleCtx) : Bool := m.role != .stub

end ModuleCtx

abbrev PyName := { name : WireText // '.' ∉ name }

structure DottedName where
  top : PyName
  rest : List PyName := []
  deriving DecidableEq

def DottedName.text (d : DottedName) : WireText := dotted ((d.top :: d.rest).map (·.1))

/-- The key from a package by dots and a tail: one dot is the package, each further one its parent. -/
def relativeKey (package : WireText) (level : Nat) (tail : List PyName) : Option WireText :=
  ((· >>= parentKey)^[level - 1] (some package)).map fun base => dotted (base :: tail.map (·.1))

inductive FromName
  | absolute (name : DottedName)
  | relative (level : Nat) (tail : List PyName)
  deriving DecidableEq

inductive FromLeaf
  | star
  | named (name : PyName) (renamed : Option WireText)
  deriving DecidableEq

inductive ImportStatement
  | importNames (leaves : List (DottedName × Option WireText))
  | fromImport (source : FromName) (leaves : List FromLeaf)
  deriving DecidableEq

structure FromModule where
  container : WireText
  written : WireText
  relative : Bool

def FromName.module (m : ModuleCtx) : FromName → Option FromModule
  | absolute name => some ⟨name.text, name.text, false⟩
  | relative level tail =>
    (m.package.bind (relativeKey · level tail)).map fun container =>
      ⟨container, List.replicate level '.' ++ dotted (tail.map (·.1)), true⟩

structure ImportEdge where
  container : WireText
  specifier : WireText
  relative : Bool
  deriving DecidableEq, Repr

def submoduleOf (container : WireText) (name : PyName) : WireText := container ++ '.' :: name.1

def submoduleSpecifier (written : WireText) (name : PyName) : WireText :=
  if written.getLast? = some '.' then written ++ name.1 else written ++ '.' :: name.1

namespace PyProject

variable (p : PyProject)

def submoduleEdge (source : FromModule) : FromLeaf → Option ImportEdge
  | .star => none
  | .named name _ =>
    if p.hasContainer (submoduleOf source.container name) then
      some ⟨submoduleOf source.container name, submoduleSpecifier source.written name, false⟩
    else none

def importEdges (m : ModuleCtx) : ImportStatement → List ImportEdge
  | .importNames leaves => leaves.map fun leaf => ⟨leaf.1.text, leaf.1.text, false⟩
  | .fromImport name leaves =>
    match name.module m with
    | none => []
    | some source =>
      ⟨source.container, source.written, source.relative⟩ ::
        if source.relative || p.hasContainer source.container then leaves.filterMap (p.submoduleEdge source) else []

end PyProject

inductive PyBinding
  | module (container : WireText)
  | item (container name : WireText)
  | star (container : WireText)
  | external
  deriving DecidableEq, Repr

namespace PyProject

variable (p : PyProject) (container : WireText)

def moduleBinding : PyBinding :=
  if p.hasContainer container then .module container else .external

def leafBinding (external : Bool) : FromLeaf → Option (WireText × PyBinding)
  | .star => if external then none else some (['*'], .star container)
  | .named name renamed =>
    some (renamed.getD name.1, if external then .external else .item container name.1)

def bindings (m : ModuleCtx) : ImportStatement → List (WireText × PyBinding)
  | .importNames leaves => leaves.map fun leaf =>
    match leaf.2 with
    | none => (leaf.1.top.1, p.moduleBinding leaf.1.top.1)
    | some renamed => (renamed, p.moduleBinding leaf.1.text)
  | .fromImport name leaves =>
    match name.module m with
    | none => []
    | some source =>
      leaves.filterMap (leafBinding source.container (!(source.relative || p.hasContainer source.container)))

end PyProject

inductive ImportTarget
  | resolvedModule (container : WireText)
  | externalModule (name : WireText)
  deriving DecidableEq, Repr

structure EmittedImport where
  target : ImportTarget
  specifier : WireText
  deriving DecidableEq, Repr

def PyProject.emit (p : PyProject) (e : ImportEdge) : EmittedImport where
  target := if e.relative || p.hasContainer e.container then .resolvedModule e.container else .externalModule e.container
  specifier := e.specifier

/-- What draws `IMPORTS` edges in a file: a statement, or a dynamic import. -/
inductive ImportSite
  | statement (statement : ImportStatement)
  | dynamic (name : WireText)
  | ownDynamic (fromModule : Bool) (level : Nat) (tail : List PyName)

namespace PyProject

variable (p : PyProject)

def siteEdges (m : ModuleCtx) : ImportSite → List ImportEdge
  | .statement st => p.importEdges m st
  | .dynamic name => [⟨name, name, false⟩]
  | .ownDynamic fromModule level tail =>
    if m.role = .orphan then []
    else
      ((if fromModule then some m.key else m.package).bind (relativeKey · level tail)).toList.map fun container =>
        ⟨container, List.replicate level '.' ++ dotted (tail.map (·.1)), true⟩

def imports (path : WireText) (sites : List ImportSite) : List EmittedImport :=
  let m := ModuleCtx.forFile (p.containerFor path)
  if m.declares then keepFirst EmittedImport.target [] ((sites.flatMap (p.siteEdges m)).map p.emit) else []

def reads (path : WireText) (st : ImportStatement) : List EmittedImport × List (WireText × PyBinding) :=
  let m := ModuleCtx.forFile (p.containerFor path)
  if m.declares then ((p.importEdges m st).map p.emit, p.bindings m st) else ([], [])

end PyProject

def EmittedImport.stored (e : EmittedImport) : StoredImport where
  importer := path
  specifier := some e.specifier
  target :=
    match e.target with
    | .resolvedModule container => some (.container, container)
    | .externalModule _ => none

structure PyFacts where
  roots : List WireText
  containers : ContainerFacts
  deriving DecidableEq, Repr

def PyProject.facts (p : PyProject) : PyFacts where
  roots := p.roots
  containers := { files := p.files.map fun path => (path, (p.containerFor path).key), keys := p.containers }

/-- The selectors for imports under a removed key, and for those of the parent of an added one. -/
def withImportSelectors (delta : ResolutionDelta) (old new : ContainerFacts) : ResolutionDelta :=
  match delta with
  | .affected files imports =>
    .affected files (imports ++ (old.removed new).map (importersUnder ['.']) ++
      ((old.added new).filterMap parentKey).dedup.map importersOfTarget)
  | other => other

def PyFacts.delta (old new : PyFacts) : ResolutionDelta :=
  if old.roots = new.roots then .unchanged
  else withImportSelectors (containerDelta old.containers new.containers ['.']) old.containers new.containers

end GMesh
