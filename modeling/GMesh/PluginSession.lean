import GMesh.FileDiff

namespace GMesh

/-- What a plugin author gives the session. A panic of `extract` is caught. -/
structure PluginExtractor (Project : Type) where
  claims : String → Bool
  withinRoot : String → Bool
  extract : Project → String → String → Option FileGraph
  filePresenceChanged : Project → String → Bool → Project
  sourceChanged : Project → String → Option String → Project

/-- One file as the session last saw it, and whether core has been told of it. -/
structure SessionEntry where
  source : String
  graph : FileGraph
  reported : Bool
  deriving DecidableEq, Repr

structure PluginSession (Project : Type) where
  project : Option Project := none
  files : String → Option SessionEntry := fun _ => none
  projectHydrated : Bool := false

namespace PluginSession

variable {Project : Type} (x : PluginExtractor Project) (s : PluginSession Project) (path : String)

def baseline : Option FileGraph :=
  ((s.files path).filter (·.reported)).map (·.graph)

def insert (entry : SessionEntry) : PluginSession Project :=
  { s with files := Function.update s.files path (some entry) }

def remove : PluginSession Project :=
  { s with files := Function.update s.files path none }

def clear : PluginSession Project :=
  { s with files := fun _ => none, projectHydrated := false }

variable (loaded : Option Project)

def ensureProject : PluginSession Project :=
  if s.project.isNone then { s with project := loaded } else s

def presenceChanged (present : Bool) : PluginSession Project :=
  if x.withinRoot path then { s with project := s.project.map fun p => x.filePresenceChanged p path present } else s

def sourceChanged (s : PluginSession Project) (path : String) (source : Option String) : PluginSession Project :=
  if x.withinRoot path then { s with project := s.project.map fun p => x.sourceChanged p path source } else s

variable (source : String)

def isReported : Bool :=
  (s.files path).any fun entry => entry.reported && entry.source == source

/-- The session whose model has taken the file's text, just before it extracts it. -/
def updated (loaded : Option Project) : PluginSession Project :=
  ((s.presenceChanged x path true).ensureProject loaded).sourceChanged x path (some source)

def extraction (loaded : Option Project) : Option FileGraph :=
  (s.updated x path source loaded).project.bind fun p => x.extract p path source

def fileChanged (reextract : Bool) (source : Option String)
    (loaded : Option Project) : PluginSession Project × FileChangeDiff :=
  if x.claims path = false then (s, {})
  else
    match source with
    | none =>
      let present := s.presenceChanged x path false
      ((present.remove path).sourceChanged x path none, diffFile (present.baseline path) {})
    | some source =>
      if !reextract && (s.presenceChanged x path true).isReported path source then (s.presenceChanged x path true, {})
      else
        match s.extraction x path source loaded with
        | none => (s.updated x path source loaded, {})
        | some graph =>
          ((s.updated x path source loaded).insert path ⟨source, graph, true⟩,
            diffFile ((s.updated x path source loaded).baseline path) graph)

def hydrateFiles (loaded : Option Project) : List (String × Option String) → PluginSession Project →
    PluginSession Project × Bool
  | [], s => (s, true)
  | (path, source) :: rest, s =>
    if (s.files path).isSome || !x.claims path then hydrateFiles loaded rest s
    else
      match source with
      | none => hydrateFiles loaded rest s
      | some source =>
        let s := (s.ensureProject loaded).presenceChanged x path true
        match s.project with
        | none => (s, false)
        | some project =>
          match x.extract project path source with
          | none => hydrateFiles loaded rest s
          | some graph => hydrateFiles loaded rest (s.insert path ⟨source, graph, false⟩)

/-- Hydrates where there is a semantic engine to answer the pass. -/
def hydrate (configured : Bool) (loaded : Option Project) (scope : List (String × Option String))
    (s : PluginSession Project) : PluginSession Project × Bool :=
  if configured then hydrateFiles x loaded scope s else (s, false)

def semanticPass (configured : Bool) (files walk : List (String × Option String))
    (loadedForWalk loadedForFiles : Option Project) : PluginSession Project :=
  let whole := if files.isEmpty || !s.projectHydrated then
      let walked := hydrate x configured loadedForWalk walk s
      { walked.1 with projectHydrated := walked.2 }
    else s
  if files.isEmpty then whole else (hydrate x configured loadedForFiles files whole).1

def filesCreated (files : List (String × Bool)) : PluginSession Project :=
  if s.project.isNone then s
  else (keepFirst Prod.fst [] (files.filter fun f => x.claims f.1)).foldl (fun s f => s.presenceChanged x f.1 f.2) s

def workspaceChanged : PluginSession Project :=
  { s.clear with project := loaded }

/-- Reloads the model. One that does not load stays. -/
def resolutionChanged (unknown : Bool) : PluginSession Project :=
  match loaded with
  | none => s.clear
  | some project => if unknown then { s.clear with project := some project } else { s with project := some project }

end PluginSession

inductive DiskFile
  | gone | unreadable | readable (text : String)
  deriving DecidableEq, Repr

def DiskFile.source : DiskFile → Option String
  | .readable text => some text
  | _ => none

def fileScope (disk : DiskFile) (d : FileChangeDiff) : FileScope :=
  if d.upsertNodes = [] ∧ d.upsertEdges = [] ∧ disk = .gone then .gone
  else if d.complete then .complete
  else .partialDiff

def Store.takeFileChange (ids : ContainerIds) (s : Store) (path : String) (disk : DiskFile) (d : FileChangeDiff) : Store :=
  s.applyDiff ids (s.widen path (fileScope disk d) d.toDiff)

inductive SessionEvent (Project : Type)
  | fileChanged (path : String) (reextract : Bool) (disk : DiskFile) (loaded : Option Project)
  | filesCreated (files : List (String × Bool))
  | semanticPass (configured : Bool) (files walk : List (String × Option String))
      (loadedForWalk loadedForFiles : Option Project)
  | workspaceChanged (loaded : Option Project)
  | resolutionChanged (loaded : Option Project) (unknown : Bool)

structure SessionWorld (Project : Type) where
  session : PluginSession Project := {}
  store : Store
  told : String → Option (String × FileGraph) := fun _ => none

namespace SessionWorld

variable {Project : Type} (ids : ContainerIds) (x : PluginExtractor Project)

def retell (told : Option (String × FileGraph)) (disk : DiskFile) (entry : Option SessionEntry) :
    Option (String × FileGraph) :=
  match entry.filter (·.reported), disk with
  | some entry, _ => some (entry.source, entry.graph)
  | none, .readable _ => told
  | none, _ => none

def step (w : SessionWorld Project) : SessionEvent Project → SessionWorld Project
  | .fileChanged path reextract disk loaded =>
    let answer := w.session.fileChanged x path reextract disk.source loaded
    { session := answer.1
      store := w.store.takeFileChange ids path disk answer.2
      told := Function.update w.told path (retell (w.told path) disk (answer.1.files path)) }
  | .filesCreated files => { w with session := w.session.filesCreated x files }
  | .semanticPass configured files walk loadedForWalk loadedForFiles =>
    { w with session := w.session.semanticPass x configured files walk loadedForWalk loadedForFiles }
  | .workspaceChanged loaded => { w with session := w.session.workspaceChanged loaded }
  | .resolutionChanged loaded unknown => { w with session := w.session.resolutionChanged loaded unknown }

def run (w : SessionWorld Project) : List (SessionEvent Project) → SessionWorld Project
  | [] => w
  | event :: before => (run w before).step ids x event

end SessionWorld

end GMesh
