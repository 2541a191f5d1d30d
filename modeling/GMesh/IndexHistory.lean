import GMesh.IndexRows

namespace GMesh

inductive IndexOp
  | applyDiff (d : IndexDiff)
  | applyFileDiff (path : String) (scope : FileScope) (d : IndexDiff)
  | applySemanticDiff (d : IndexDiff)
  | linkDiffImports (d : IndexDiff)
  | linkAllImports
  | linkDiff (d : IndexDiff)
  | linkAll
  | deletePlaceholders (language : String) (ids : List String)
  deriving DecidableEq, Repr

def IndexOp.run (ids : ContainerIds) (rules : LinkRules) (f : IndexFile) : IndexOp → IndexFile
  | applyDiff d => (f.applyDiff ids d).getD f
  | applyFileDiff path scope d => (f.applyDiff ids (f.widen path scope d)).getD f
  | applySemanticDiff d => (f.applySemanticDiff ids d).getD f
  | linkDiffImports d => f.linkDiffImports d
  | linkAllImports => f.linkAllImports
  | linkDiff d => f.linkDiff rules d
  | linkAll => f.linkAll rules
  | deletePlaceholders language placeholders => f.deletePlaceholders language placeholders

/-- How an index file came about. A swap takes in a staging file with its own history. -/
inductive History
  | empty
  | op (before : History) (o : IndexOp)
  | swap (before staging : History) (plan : Plan)

namespace History

def file (ids : ContainerIds) (rules : LinkRules) : History → IndexFile
  | empty => {}
  | op before o => o.run ids rules (before.file ids rules)
  | swap before staging plan => swapAttached (before.file ids rules) (staging.file ids rules) plan

def All (ids : ContainerIds) (rules : LinkRules) (op : IndexFile → IndexOp → Prop)
    (swap : IndexFile → IndexFile → Plan → Prop) : History → Prop
  | .empty => True
  | .op before o => before.All ids rules op swap ∧ op (before.file ids rules) o
  | .swap before staging plan => before.All ids rules op swap ∧ staging.All ids rules op swap ∧
      swap (before.file ids rules) (staging.file ids rules) plan

end History

end GMesh
