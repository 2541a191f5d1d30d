import GMesh.AnswerOps
import GMesh.BridgeSettle
import Mathlib.Data.Prod.Lex

namespace GMesh

open KeyedTable List

namespace RecordOp

variable (v : ServerView) (r : RecordOp)

def address : PlaceholderAddress := addressKey r.inFile r.target

def edge : RecordedEdge :=
  let placeholder := placeholderId v.digest r.inFile r.target
  ⟨edgeId v.digest r.fromId r.kind placeholder r.toDeclaration, r.inFile, r.fromId, r.kind, placeholder, r.declaration,
    r.toDeclaration⟩

def held : HeldPlaceholder :=
  ⟨r.address, placeholderId v.digest r.inFile r.target, r.target, r.name, r.range⟩

def hold : Option HeldPlaceholder → HeldPlaceholder
  | some held => if witnessBefore r.name r.range held then { held with name := r.name, range := r.range } else held
  | none => r.held v

end RecordOp

def AnswerOp.record? : AnswerOp → Option RecordOp
  | .record r => some r
  | _ => none

def AnswerOp.upheld? : AnswerOp → Option (String × Option Confirmed)
  | .uphold edge agreed => some (edge, agreed)
  | _ => none

def AnswerOp.contradicted? : AnswerOp → Option String
  | .contradict edge => some edge
  | _ => none

def AnswerOp.untyped? : AnswerOp → Option (String × String)
  | .untyped call => some call
  | _ => none

def witnessRank (name : String) (range : TextRange) : Nat ×ₗ Nat ×ₗ Nat ×ₗ Nat ×ₗ String :=
  toLex (range.start.line, toLex (range.start.col, toLex (range.stop.line, toLex (range.stop.col, name))))

theorem TextPosition.upTo_iff {p q : TextPosition} : p.upTo q ↔ p.line < q.line ∨ p.line = q.line ∧ p.col ≤ q.col := by
  simp [upTo]

theorem witnessBefore_iff {name : String} {range : TextRange} {h : HeldPlaceholder} :
    witnessBefore name range h ↔ witnessRank name range < witnessRank h.name h.range := by
  obtain ⟨⟨sl, sc⟩, ⟨el, ec⟩⟩ := range
  obtain ⟨_, _, _, hname, ⟨⟨hsl, hsc⟩, ⟨hel, hec⟩⟩⟩ := h
  simp only [witnessBefore, witnessRank, Prod.Lex.toLex_lt_toLex, ne_eq, TextPosition.mk.injEq]
  by_cases hstart : sl = hsl ∧ sc = hsc
  · obtain ⟨rfl, rfl⟩ := hstart
    by_cases hstop : el = hel ∧ ec = hec
    · obtain ⟨rfl, rfl⟩ := hstop
      simp
    · simp only [hstop, not_true_eq_false, and_self, if_false, not_false_eq_true, if_true, TextPosition.upTo_iff]
      simp only [lt_self_iff_false, false_or, true_and]
      omega
  · simp only [hstart, not_false_eq_true, if_true, TextPosition.upTo_iff]
    omega

theorem witnessRank_inj {name name' : String} {range range' : TextRange}
    (h : witnessRank name range = witnessRank name' range') : name = name' ∧ range = range' := by
  obtain ⟨⟨sl', sc'⟩, ⟨el', ec'⟩⟩ := range'
  obtain ⟨rfl, rfl, rfl, rfl, rfl⟩ := h
  exact ⟨rfl, rfl⟩

namespace Answers

variable {v : ServerView} {a : Answers}

def HoldsAddresses (v : ServerView) (a : Answers) : Prop :=
  ∀ h ∈ a.placeholders, h.address = addressKey h.address.file h.target ∧
    h.id = placeholderId v.digest h.address.file h.target

theorem HoldsAddresses.empty (v : ServerView) : ({} : Answers).HoldsAddresses v := fun _ hh => nomatch hh

theorem placeholderId_congr {digest : Digest} {file file' : String} {target target' : PlaceholderTargetRecord}
    (h : addressKey file target = addressKey file' target') :
    placeholderId digest file target = placeholderId digest file' target' := by
  simp only [addressKey, PlaceholderAddress.mk.injEq] at h
  obtain ⟨rfl, hscopeKind, hscope, hkeyKind, hkey⟩ := h
  simp only [placeholderId, renderTarget, hscopeKind, hscope, hkeyKind, hkey]

section

variable (ha : a.HoldsAddresses v) (r : RecordOp)

include ha

theorem HoldsAddresses.id {r : RecordOp} {h : HeldPlaceholder} (hh : a.placeholders.find? r.address = some h) :
    h.id = placeholderId v.digest r.inFile r.target := by
  obtain ⟨hmem, hkey⟩ := find?_eq_some_iff.mp hh
  obtain ⟨haddress, hid⟩ := ha h hmem
  rw [hid]
  exact placeholderId_congr (haddress.symm.trans hkey)

/-- An answer touches the placeholder of its own address and no other. -/
theorem holdPlaceholder_spec :
    (a.holdPlaceholder v r.inFile r.name r.range r.target).2 = placeholderId v.digest r.inFile r.target ∧
      ∀ k, (a.holdPlaceholder v r.inFile r.name r.range r.target).1.find? k =
        if k = r.address then some (r.hold v (a.placeholders.find? k)) else a.placeholders.find? k := by
  unfold holdPlaceholder
  dsimp only
  cases hheld : a.placeholders.find? (addressKey r.inFile r.target) with
  | none =>
    refine ⟨rfl, fun k => ?_⟩
    rw [find?_put]
    by_cases hk : k = r.address
    · subst hk
      have hnone : a.placeholders.find? r.address = none := hheld
      rw [hnone, if_pos rfl]
      exact if_pos rfl
    · rw [if_neg hk, if_neg fun he => hk he.symm]
  | some held =>
    have hsome : a.placeholders.find? r.address = some held := hheld
    have hkey : held.address = r.address := (find?_eq_some_iff.mp hsome).2
    refine ⟨ha.id hsome, fun k => ?_⟩
    by_cases hk : k = r.address
    · subst hk
      rw [if_pos rfl, hsome]
      simp only [RecordOp.hold]
      split
      · rw [find?_put, if_pos hkey]
      · exact hsome
    · rw [if_neg hk]
      dsimp only
      split
      · rw [find?_put, if_neg fun he => hk (he.symm.trans hkey)]
      · rfl

structure RecordSpec (v : ServerView) (a : Answers) (r : RecordOp) (b : Answers) : Prop where
  placeholders : ∀ k, b.placeholders.find? k =
    if k = r.address then some (r.hold v (a.placeholders.find? k)) else a.placeholders.find? k
  recorded : b.recorded = if (r.edge v).id ∈ a.seen then a.recorded else a.recorded ++ [r.edge v]
  seen : b.seen = if (r.edge v).id ∈ a.seen then a.seen else (r.edge v).id :: a.seen
  byFile : b.byFile = if (r.edge v).id ∈ a.seen then a.byFile else a.byFile ++ [(r.forFile, (r.edge v).id)]
  bound : ∀ k, b.overloadBound.find? k =
    if r.boundAt = some k then some ⟨k.1, k.2, (r.edge v).id⟩ else a.overloadBound.find? k
  rest : b.retract = a.retract ∧ b.confirmed = a.confirmed ∧ b.contradicted = a.contradicted ∧ b.upheld = a.upheld ∧
    b.resend = a.resend ∧ b.untypedAnswered = a.untypedAnswered

omit ha in
theorem applyRecord_eq : ∃ bound, (∀ k, bound.find? k =
      if r.boundAt = some k then
        some ⟨k.1, k.2, edgeId v.digest r.fromId r.kind (a.holdPlaceholder v r.inFile r.name r.range r.target).2
          r.toDeclaration⟩
      else a.overloadBound.find? k) ∧
    a.applyRecord v r = { (a.record v r.forFile r.inFile r.fromId r.kind r.name r.range r.target r.declaration
      r.toDeclaration).1 with overloadBound := bound } := by
  have hrecord : (a.record v r.forFile r.inFile r.fromId r.kind r.name r.range r.target r.declaration
      r.toDeclaration).1.overloadBound = a.overloadBound ∧
      (a.record v r.forFile r.inFile r.fromId r.kind r.name r.range r.target r.declaration r.toDeclaration).2 =
        edgeId v.digest r.fromId r.kind (a.holdPlaceholder v r.inFile r.name r.range r.target).2 r.toDeclaration := by
    unfold record
    dsimp only
    split <;> exact ⟨rfl, rfl⟩
  unfold applyRecord
  generalize a.record v r.forFile r.inFile r.fromId r.kind r.name r.range r.target r.declaration r.toDeclaration = b
    at hrecord ⊢
  cases hbound : r.boundAt with
  | none => exact ⟨b.1.overloadBound, fun k => by simp [hrecord.1], rfl⟩
  | some k =>
    refine ⟨b.1.overloadBound.put ⟨k.1, k.2, b.2⟩, fun k' => ?_, rfl⟩
    rw [find?_put, hrecord.1, hrecord.2]
    by_cases hk : k = k'
    · subst hk
      simp
    · simp [hk]

/-- What one recorded edge does to each of the books. -/
theorem applyRecord_spec : RecordSpec v a r (a.applyRecord v r) := by
  obtain ⟨hid, hfind⟩ := holdPlaceholder_spec ha r
  obtain ⟨bound, hbound, hbooks⟩ := @applyRecord_eq v a r
  have hedge : edgeId v.digest r.fromId r.kind (a.holdPlaceholder v r.inFile r.name r.range r.target).2 r.toDeclaration =
      (r.edge v).id := by
    rw [hid]
    rfl
  rw [hedge] at hbound
  rw [hbooks]
  unfold record
  simp only [hedge]
  by_cases hseen : (r.edge v).id ∈ a.seen
  · simp only [hseen, if_true]
    exact ⟨hfind, by simp [hseen], by simp [hseen], by simp [hseen], hbound, by simp⟩
  · simp only [hseen, if_false, hid]
    have hrow : (⟨(r.edge v).id, r.inFile, r.fromId, r.kind, placeholderId v.digest r.inFile r.target, r.declaration,
        r.toDeclaration⟩ : RecordedEdge) = r.edge v := rfl
    exact ⟨hfind, by simp [hseen, hrow], by simp [hseen], by simp [hseen], hbound, by simp⟩

theorem HoldsAddresses.applyRecord : (a.applyRecord v r).HoldsAddresses v := by
  intro h hh
  have hfind := (applyRecord_spec ha r).placeholders h.address
  rw [find?_key hh] at hfind
  split at hfind
  next hk =>
    have hsame := Option.some.inj hfind
    rw [hk] at hsame
    cases hheld : a.placeholders.find? r.address with
    | none =>
      rw [hheld] at hsame
      rw [hsame]
      exact ⟨rfl, rfl⟩
    | some old =>
      obtain ⟨hmem, hkey⟩ := find?_eq_some_iff.mp hheld
      obtain ⟨haddress, hid⟩ := ha old hmem
      rw [hheld] at hsame
      simp only [RecordOp.hold] at hsame
      split at hsame
      · rw [hsame]
        exact ⟨haddress, hid⟩
      · rw [hsame]
        exact ⟨haddress, hid⟩
  next => exact ha h (find?_eq_some_iff.mp hfind.symm).1

theorem HoldsAddresses.applyOp (op : AnswerOp) : (a.applyOp v op).HoldsAddresses v := by
  cases op with
  | record r => exact ha.applyRecord r
  | uphold | contradict | untyped => exact ha

def entries (v : ServerView) (ops : List AnswerOp) : List (String × RecordedEdge) :=
  (ops.filterMap AnswerOp.record?).map fun r => (r.forFile, r.edge v)

theorem applyOps_recorded (ops : List AnswerOp) :
    (a.applyOps v ops).recorded = a.recorded ++ (keepFirst (fun e => e.2.id) a.seen (entries v ops)).map Prod.snd ∧
    (a.applyOps v ops).byFile = a.byFile ++
      (keepFirst (fun e => e.2.id) a.seen (entries v ops)).map fun e => (e.1, e.2.id) := by
  induction ops generalizing a with
  | nil => simp [entries, keepFirst]
  | cons op ops ih =>
    obtain ⟨hrecorded, hbyFile⟩ := ih (ha.applyOp op)
    rw [applyOps_cons, hrecorded, hbyFile]
    cases op with
    | record r =>
      have hspec := applyRecord_spec ha r
      have hentries : entries v (.record r :: ops) = (r.forFile, r.edge v) :: entries v ops := rfl
      simp only [applyOp, hspec.recorded, hspec.byFile, hspec.seen, hentries, keepFirst]
      split <;> simp
    | uphold | contradict | untyped => exact ⟨rfl, rfl⟩

end

section Fold

variable {r r' : RecordOp}

theorem ite_lt_comm {α β : Type} [LinearOrder β] {i j : β} {x y : α} (h : i = j → x = y) :
    (if j < i then y else x) = if i < j then x else y := by
  rcases lt_trichotomy i j with hlt | heq | hgt
  · rw [if_neg hlt.asymm, if_pos hlt]
  · simp [h heq]
  · rw [if_pos hgt, if_neg hgt.asymm]

theorem hold_some_comm (r r' : RecordOp) (h : HeldPlaceholder) :
    r'.hold v (some (r.hold v (some h))) = r.hold v (some (r'.hold v (some h))) := by
  simp only [RecordOp.hold]
  by_cases hr : witnessBefore r.name r.range h <;> by_cases hr' : witnessBefore r'.name r'.range h <;>
    simp only [hr, hr', if_true, if_false, Bool.false_eq_true]
  · simp only [witnessBefore_iff]
    refine ite_lt_comm fun heq => ?_
    obtain ⟨hname, hrange⟩ := witnessRank_inj heq
    simp [hname, hrange]
  · rw [witnessBefore_iff] at hr hr'
    simp only [witnessBefore_iff]
    rw [if_neg (lt_trans · hr |> hr')]
  · rw [witnessBefore_iff] at hr hr'
    simp only [witnessBefore_iff]
    rw [if_neg (lt_trans · hr' |> hr)]

theorem hold_none_comm (haddress : r.address = r'.address) (htarget : r.target = r'.target) :
    r'.hold v (some (r.hold v none)) = r.hold v (some (r'.hold v none)) := by
  have hid : placeholderId v.digest r.inFile r'.target = placeholderId v.digest r'.inFile r'.target := by
    rw [← placeholderId_congr haddress, htarget]
  simp only [RecordOp.hold, witnessBefore_iff, RecordOp.held, haddress, htarget, hid]
  refine ite_lt_comm fun heq => ?_
  obtain ⟨hname, hrange⟩ := witnessRank_inj heq
  simp [hname, hrange]

variable (ha : a.HoldsAddresses v)

include ha

variable (ops : List AnswerOp)

theorem applyOps_placeholders (k : PlaceholderAddress) :
    (a.applyOps v ops).placeholders.find? k = (ops.filterMap AnswerOp.record?).foldl
      (fun o r => if k = r.address then some (r.hold v o) else o) (a.placeholders.find? k) := by
  induction ops generalizing a with
  | nil => rfl
  | cons op _ ih =>
    rw [applyOps_cons, ih (ha.applyOp op)]
    cases op with
    | record r =>
      have hfind := (applyRecord_spec ha r).placeholders k
      simp only [applyOp, hfind]
      rfl
    | uphold | contradict | untyped => rfl

theorem applyOps_overloadBound (k : String × TextPosition) :
    (a.applyOps v ops).overloadBound.find? k = (ops.filterMap AnswerOp.record?).foldl
      (fun o r => if r.boundAt = some k then some ⟨k.1, k.2, (r.edge v).id⟩ else o) (a.overloadBound.find? k) := by
  induction ops generalizing a with
  | nil => rfl
  | cons op _ ih =>
    rw [applyOps_cons, ih (ha.applyOp op)]
    cases op with
    | record r =>
      have hfind := (applyRecord_spec ha r).bound k
      simp only [applyOp, hfind]
      rfl
    | uphold | contradict | untyped => rfl

theorem applyOps_lists :
    (a.applyOps v ops).contradicted = (ops.filterMap AnswerOp.contradicted?).reverse ++ a.contradicted ∧
    (a.applyOps v ops).retract = (ops.filterMap AnswerOp.contradicted?).reverse ++ a.retract ∧
    (a.applyOps v ops).upheld = ((ops.filterMap AnswerOp.upheld?).map Prod.fst).reverse ++ a.upheld ∧
    (a.applyOps v ops).confirmed = a.confirmed ++ (ops.filterMap AnswerOp.upheld?).flatMap (·.2.toList) ∧
    (a.applyOps v ops).untypedAnswered = (ops.filterMap AnswerOp.untyped?).reverse ++ a.untypedAnswered ∧
    (a.applyOps v ops).resend = a.resend := by
  induction ops generalizing a with
  | nil => simp
  | cons op _ ih =>
    have hrest := ih (ha.applyOp op)
    cases op with
    | record r =>
      obtain ⟨h1, h2, h3, h4, h5, h6⟩ := (applyRecord_spec ha r).rest
      simp only [applyOp, h1, h2, h3, h4, h5, h6] at hrest
      exact hrest
    | uphold | contradict | untyped =>
      simpa [applyOp, filterMap_cons, AnswerOp.upheld?, AnswerOp.contradicted?, AnswerOp.untyped?] using hrest

end Fold

/-- What answers record agrees: an address has one target, an edge id one edge of one file, an overload site one edge.
-/
structure Agree (v : ServerView) (ops : List AnswerOp) : Prop where
  target : ∀ r r', .record r ∈ ops → .record r' ∈ ops → r.address = r'.address → r.target = r'.target
  edge : ∀ r r', .record r ∈ ops → .record r' ∈ ops → (r.edge v).id = (r'.edge v).id →
    r.forFile = r'.forFile ∧ r.edge v = r'.edge v
  bound : ∀ r r' k, .record r ∈ ops → .record r' ∈ ops → r.boundAt = some k → r'.boundAt = some k →
    (r.edge v).id = (r'.edge v).id

theorem Agree.perm {ops ops' : List AnswerOp} (h : Agree v ops) (hperm : ops.Perm ops') : Agree v ops' where
  target r r' hr hr' := h.target r r' (hperm.mem_iff.mpr hr) (hperm.mem_iff.mpr hr')
  edge r r' hr hr' := h.edge r r' (hperm.mem_iff.mpr hr) (hperm.mem_iff.mpr hr')
  bound r r' k hr hr' := h.bound r r' k (hperm.mem_iff.mpr hr) (hperm.mem_iff.mpr hr')

structure SameBooks (a b : Answers) : Prop where
  placeholders : ∀ k, a.placeholders.find? k = b.placeholders.find? k
  recorded : a.recorded.Perm b.recorded
  byFile : a.byFile.Perm b.byFile
  retract : a.retract.Perm b.retract
  confirmed : a.confirmed.Perm b.confirmed
  contradicted : a.contradicted.Perm b.contradicted
  upheld : a.upheld.Perm b.upheld
  resend : a.resend = b.resend
  untypedAnswered : a.untypedAnswered.Perm b.untypedAnswered
  overloadBound : ∀ k, a.overloadBound.find? k = b.overloadBound.find? k

theorem mem_record? {ops : List AnswerOp} {r : RecordOp} : r ∈ ops.filterMap AnswerOp.record? ↔ .record r ∈ ops := by
  rw [mem_filterMap]
  constructor
  · rintro ⟨op, hop, hr⟩
    cases op with
    | record r' =>
      cases hr
      exact hop
    | uphold | contradict | untyped => cases hr
  · exact fun hr => ⟨_, hr, rfl⟩

instance (v : ServerView) (ops : List AnswerOp) : Decidable (Agree v ops) :=
  decidable_of_iff (∀ r ∈ ops.filterMap AnswerOp.record?, ∀ r' ∈ ops.filterMap AnswerOp.record?,
      (r.address = r'.address → r.target = r'.target) ∧
      ((r.edge v).id = (r'.edge v).id → r.forFile = r'.forFile ∧ r.edge v = r'.edge v) ∧
      (r.boundAt.isSome = true → r.boundAt = r'.boundAt → (r.edge v).id = (r'.edge v).id)) <| by
    constructor
    · intro h
      refine ⟨fun r r' hr hr' => (h r (mem_record?.mpr hr) r' (mem_record?.mpr hr')).1,
        fun r r' hr hr' => (h r (mem_record?.mpr hr) r' (mem_record?.mpr hr')).2.1, fun r r' k hr hr' hk hk' => ?_⟩
      exact (h r (mem_record?.mpr hr) r' (mem_record?.mpr hr')).2.2 (by rw [hk]; rfl) (hk.trans hk'.symm)
    · intro h r hr r' hr'
      have hr := mem_record?.mp hr
      have hr' := mem_record?.mp hr'
      refine ⟨h.target r r' hr hr', h.edge r r' hr hr', fun hsome hsame => ?_⟩
      obtain ⟨k, hk⟩ := Option.isSome_iff_exists.mp hsome
      exact h.bound r r' k hr hr' hk (hsame ▸ hk)

/-- Operations that agree leave the same books in every order. -/
theorem sameBooks_of_perm {ops ops' : List AnswerOp} (hagree : Agree v ops) (hperm : ops.Perm ops') :
    SameBooks (({} : Answers).applyOps v ops) (({} : Answers).applyOps v ops') := by
  have hempty := HoldsAddresses.empty v
  have hreverse : ∀ {α : Type} {l l' t : List α}, l.Perm l' → (l.reverse ++ t).Perm (l'.reverse ++ t) :=
    fun h => (((reverse_perm _).trans h).trans (reverse_perm _).symm).append_right _
  have hrecords := hperm.filterMap AnswerOp.record?
  have hentries : (entries v ops).Perm (entries v ops') := hrecords.map _
  have hkept : (keepFirst (fun e : String × RecordedEdge => e.2.id) [] (entries v ops)).Perm
      (keepFirst (fun e => e.2.id) [] (entries v ops')) := by
    refine keepFirst_perm hentries ?_
    intro e he e' he' hid
    obtain ⟨r, hr, rfl⟩ := mem_map.mp he
    obtain ⟨r', hr', rfl⟩ := mem_map.mp he'
    obtain ⟨hfile, hedge⟩ := hagree.edge r r' (mem_record?.mp hr) (mem_record?.mp hr') hid
    rw [hfile, hedge]
  obtain ⟨hrec, hby⟩ := applyOps_recorded hempty ops
  obtain ⟨hrec', hby'⟩ := applyOps_recorded hempty ops'
  obtain ⟨hcon, hret, hup, hconf, hunt, hres⟩ := applyOps_lists hempty ops
  obtain ⟨hcon', hret', hup', hconf', hunt', hres'⟩ := applyOps_lists hempty ops'
  constructor
  case placeholders =>
    intro k
    rw [applyOps_placeholders hempty, applyOps_placeholders hempty]
    refine hrecords.foldl_eq' (fun r hr r' hr' o => ?_) _
    by_cases hk : k = r.address
    · by_cases hk' : k = r'.address
      · have haddress : r.address = r'.address := hk.symm.trans hk'
        simp only [if_pos hk, if_pos hk']
        cases o with
        | none => rw [hold_none_comm haddress (hagree.target r r' (mem_record?.mp hr) (mem_record?.mp hr') haddress)]
        | some h => rw [hold_some_comm]
      · simp only [if_pos hk, if_neg hk']
    · simp only [if_neg hk]
  case overloadBound =>
    intro k
    rw [applyOps_overloadBound hempty, applyOps_overloadBound hempty]
    refine hrecords.foldl_eq' (fun r hr r' hr' o => ?_) _
    by_cases hk : r.boundAt = some k <;> by_cases hk' : r'.boundAt = some k <;> simp only [hk, hk', if_true, if_false]
    rw [hagree.bound r r' k (mem_record?.mp hr) (mem_record?.mp hr') hk hk']
  case recorded =>
    rw [hrec, hrec']
    exact (hkept.map _).append_left _
  case byFile =>
    rw [hby, hby']
    exact (hkept.map _).append_left _
  case retract =>
    rw [hret, hret']
    exact hreverse (hperm.filterMap _)
  case contradicted =>
    rw [hcon, hcon']
    exact hreverse (hperm.filterMap _)
  case upheld =>
    rw [hup, hup']
    exact hreverse ((hperm.filterMap _).map _)
  case confirmed =>
    rw [hconf, hconf']
    exact ((hperm.filterMap _).flatMap_right _).append_left _
  case untypedAnswered =>
    rw [hunt, hunt']
    exact hreverse (hperm.filterMap _)
  case resend => rw [hres, hres']

end Answers

end GMesh
