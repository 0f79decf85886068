import Jass.Proofs.Names
/-!
# Walks up a type's ancestry end

Two checks walk from a type to its parent, its parent's parent and so on: whether a type is a
base type or extends it (`Tables.baseWalk`), and the category of the first base type on the way
(`Tables.categoryWalk`). Neither loop bounds itself; here each runs on fuel, and `none` says the
fuel ran out. They end because a parent is resolved before its child is stored, so every
resolved parent sits at a smaller table index (`Table.ParentsFirst`), whatever the files read:
a redeclared name, a type that names itself as its parent (the parent is then the earlier entry
of that name, or undeclared), an undeclared parent, a file that fails.

Main statement: in every session a run of parses reaches, both walks end within one step more
than the number of types and give what `Tables.isOfBaseType` and `Tables.categoryOf` compute
from the type's ancestry (`ancestry_walks_end`).
-/

namespace Jass

namespace Tables

/-- The parent a walk moves to from a type reference: a declared type's parent, none for a base
type or a name never declared. -/
def parentRef (ts : Tables) : Ref TypeId → Option (Ref TypeId)
  | .resolved id => (ts.type? id).bind (·.parent)
  | .unresolved _ => none

def baseWalk (ts : Tables) (base : String) : Nat → Ref TypeId → Option Bool
  | 0, _ => none
  | fuel + 1, r =>
    if ts.typeRefName r = base then some true
    else match ts.parentRef r with
      | some p => ts.baseWalk base fuel p
      | none => some false

def categoryWalk (ts : Tables) : Nat → Ref TypeId → Option Category
  | 0, _ => none
  | fuel + 1, r =>
    if !(Category.ofBaseName (ts.typeRefName r)).isEmpty then
      some (Category.ofBaseName (ts.typeRefName r))
    else match ts.parentRef r with
      | some p => ts.categoryWalk fuel p
      | none => some .empty

def walk (ts : Tables) : Nat → Ref TypeId → Option (List String)
  | 0, _ => none
  | fuel + 1, r =>
    match ts.parentRef r with
    | some p => (ts.walk fuel p).map (ts.typeRefName r :: ·)
    | none => some [ts.typeRefName r]

variable {ts : Tables}

/-! ## The two checks read the names of the walk -/

theorem walk_succ_eq_some {fuel : Nat} {r : Ref TypeId} {names : List String}
    (h : ts.walk (fuel + 1) r = some names) :
    (ts.parentRef r = none ∧ names = [ts.typeRefName r]) ∨
      ∃ p rest, ts.parentRef r = some p ∧ ts.walk fuel p = some rest ∧
        names = ts.typeRefName r :: rest := by
  simp only [walk] at h
  split at h
  · next p hp =>
    obtain ⟨rest, hrest, rfl⟩ := Option.map_eq_some_iff.mp h
    exact .inr ⟨p, rest, hp, hrest, rfl⟩
  · next hp =>
    cases h
    exact .inl ⟨hp, rfl⟩

theorem baseWalk_of_walk (base : String) :
    ∀ {fuel : Nat} {r : Ref TypeId} {names : List String}, ts.walk fuel r = some names →
      ts.baseWalk base fuel r = some (names.contains base)
  | 0, _, _, h => by cases h
  | fuel + 1, r, names, h => by
    simp only [baseWalk]
    by_cases hb : ts.typeRefName r = base
    · rcases walk_succ_eq_some h with ⟨-, rfl⟩ | ⟨_, _, -, -, rfl⟩ <;> simp [hb]
    · rw [if_neg hb]
      rcases walk_succ_eq_some h with ⟨hp, rfl⟩ | ⟨p, rest, hp, hrest, rfl⟩
      · simpa [hp, eq_comm] using hb
      · simp only [hp]
        rw [baseWalk_of_walk base hrest]
        simp [Ne.symm hb]

theorem categoryWalk_of_walk :
    ∀ {fuel : Nat} {r : Ref TypeId} {names : List String}, ts.walk fuel r = some names →
      ts.categoryWalk fuel r =
        some (((names.map Category.ofBaseName).find? (!·.isEmpty)).getD .empty)
  | 0, _, _, h => by cases h
  | fuel + 1, r, names, h => by
    simp only [categoryWalk]
    by_cases hc : (Category.ofBaseName (ts.typeRefName r)).isEmpty = false
    · rcases walk_succ_eq_some h with ⟨-, rfl⟩ | ⟨_, _, -, -, rfl⟩ <;> simp [hc]
    · rw [if_neg (by simpa using hc)]
      have hc' : (Category.ofBaseName (ts.typeRefName r)).isEmpty = true := by simpa using hc
      rcases walk_succ_eq_some h with ⟨hp, rfl⟩ | ⟨p, rest, hp, hrest, rfl⟩
      · simp [hp, hc']
      · simp only [hp]
        rw [categoryWalk_of_walk hrest]
        simp [hc']

end Tables

/-! ## Parents come first -/

/-- Every declared type's resolved parent is stored at a smaller index. -/
def Table.ParentsFirst (t : Table TypeDecl) : Prop :=
  ∀ i d p, t.get? i = some d → d.parent = some (.resolved p) → p.index < i

namespace Tables

variable {ts : Tables}

theorem walk_unresolved (n : String) {fuel : Nat} (hf : 0 < fuel) :
    ts.walk fuel (.unresolved n) = some [n] := by
  obtain ⟨fuel, rfl⟩ : ∃ f, fuel = f + 1 := ⟨fuel - 1, by omega⟩
  rfl

theorem walk_ancestryAt (h : ts.types.ParentsFirst) :
    ∀ i, i < ts.types.size → ∀ fuel, i + 2 ≤ fuel →
      ts.walk fuel (.resolved ⟨i⟩) = some (ts.ancestryAt i) := by
  intro i
  induction i using Nat.strong_induction_on with
  | _ i ih =>
    intro hi fuel hf
    obtain ⟨fuel, rfl⟩ : ∃ f, fuel = f + 1 := ⟨fuel - 1, by omega⟩
    obtain ⟨d, hd⟩ : ∃ d, ts.types.get? i = some d :=
      Option.isSome_iff_exists.mp (by simp [Table.get?, Table.size] at hi ⊢; omega)
    have hname : ts.typeRefName (.resolved ⟨i⟩) = d.name := by
      simp [typeRefName, type?, hd]
    rw [ancestryAt, hd]
    simp only [walk, parentRef, type?, hd, Option.bind_some, hname]
    -- the three kinds of parent: none, an earlier type, an undeclared name
    rcases hp : d.parent with _ | p | n
    · rfl
    · have hlt := h i d p hd hp
      dsimp only
      rw [if_pos hlt, ih p.index hlt (by omega) fuel (by omega)]
      rfl
    · dsimp only
      rw [walk_unresolved n (by omega)]
      rfl

theorem walk_ancestry (h : ts.types.ParentsFirst) {r : Ref TypeId} (hr : (AnyRef.type r).ValidIn ts) :
    ts.walk (ts.types.size + 1) r = some (ts.ancestry r) := by
  cases r with
  | resolved id => exact walk_ancestryAt h id.index hr _ (by simp [AnyRef.ValidIn] at hr; omega)
  | unresolved n => exact walk_unresolved n (by omega)

end Tables

namespace Table

theorem parentsFirst_insert {t : Table TypeDecl} (h : t.ParentsFirst) (n : String) {d : TypeDecl}
    (hd : ∀ p, d.parent = some (.resolved p) → p.index < t.size) :
    (t.insert n d).1.ParentsFirst := by
  intro i e p he hp
  rw [get?_insert] at he
  split at he
  · next hi =>
    cases he
    exact hi ▸ hd p hp
  · exact h i e p he hp

end Table

/-! ## Every run of the parser keeps parents first -/

/-- Parents stay first through every step of a parse: the types registry is named and parents
come first, the types only grow, and a type reference that is read is a stored type. -/
def parentsFirst : DeclDiscipline where
  inv s := s.tables.types.NamesStored ∧ s.tables.types.ParentsFirst
  le s t := s.tables.types.Extends t.tables.types
  err _ _ := True
  ref r s := ∀ id, r = .type (.resolved id) → id.index < s.tables.types.size
  le_refl _ := Table.Extends.refl _
  le_trans := Table.Extends.trans
  ref_le h hst id hr := Nat.lt_of_lt_of_le (h id hr) hst.size_le
  step _ hs _ := ⟨hs, .refl _⟩
  skip _ hs := ⟨hs, .refl _⟩
  fail _ _ hs := ⟨hs, .refl _, trivial⟩
  halt _ _ _ _ := trivial
  rewind _ hs h _ _ := ⟨hs, h⟩
  var _ _ _ _ h := by cases h
  fn _ _ _ _ h := by cases h
  type s name hs id h := by
    have := Tables.resolveType_validIn hs.1 name
    rw [h] at this
    exact this
  insertType s d hs hd := by
    refine ⟨⟨hs.1.insert d.name d, Table.parentsFirst_insert hs.2 d.name fun p hp => ?_⟩,
      Table.extends_insert .., ?_⟩
    · exact hd (.type (.resolved p)) (by simp [TypeDecl.refs, hp]) p rfl
    · intro id h
      cases h
      simp [ParseState.withType]
  insertVar _ _ hs _ _ := ⟨hs, .refl _, fun _ h => by cases h⟩
  insertFun _ _ hs _ := ⟨hs, .refl _, fun _ h => by cases h⟩
  pushScoped _ _ hs _ _ := ⟨hs, .refl _, fun _ h => by cases h⟩
  clearScope _ hs := ⟨hs, .refl _⟩
  err_clearScope _ _ _ := trivial

theorem parseFile_parentsFirst (src path : String) {ts : Tables} (lim : Limits)
    (h : ts.types.NamesStored ∧ ts.types.ParentsFirst) :
    (parseFile src path ts lim).2.types.NamesStored ∧ (parseFile src path ts lim).2.types.ParentsFirst := by
  unfold parseFile
  split
  · exact h
  · next tokens _ =>
    rw [Parser.runOn_eq]
    have hrun := parentsFirst.fileRules.keeps_file (Parse.budget tokens.size) path
      (ParseState.start tokens ts lim) h
    rcases hr : (Parse.file (Parse.budget tokens.size) path).exec
      (ParseState.start tokens ts lim) with ⟨_ | f, s⟩ <;> rw [hr] at hrun
    · exact hrun.1
    · exact hrun.1

namespace Tables

theorem initial_parentsFirst : initial.types.NamesStored ∧ initial.types.ParentsFirst := by
  -- the base types are registered one after the other, none with a parent
  have step : ∀ (l : List String) (t : Table TypeDecl), t.NamesStored → t.ParentsFirst →
      (l.foldl (fun t n => (t.insert n ⟨n, none, none⟩).1) t).NamesStored ∧
        (l.foldl (fun t n => (t.insert n ⟨n, none, none⟩).1) t).ParentsFirst := by
    intro l
    induction l with
    | nil => exact fun t hn hp => ⟨hn, hp⟩
    | cons n l ih =>
      exact fun t hn hp => ih _ (hn.insert n _) (Table.parentsFirst_insert hp n fun _ h => by cases h)
  exact step baseTypeNames {} Table.namesStored_empty fun i d p h => by simp [Table.get?] at h

theorem initial_base : ∀ k (hk : k < baseTypeNames.length),
    (initial.types.get? k).map (fun d => (d.name, d.parent)) = some (baseTypeNames[k], none) := by
  decide

end Tables

namespace Session

theorem Reachable.parentsFirst {s : Session} (hs : s.Reachable) :
    s.tables.types.NamesStored ∧ s.tables.types.ParentsFirst := by
  induction hs with
  | fresh => exact Tables.initial_parentsFirst
  | @parse s src path _ ih =>
    have h := parseFile_parentsFirst src path s.limits ih
    unfold Session.parse
    split <;> simp_all

theorem Reachable.extends_initial {s : Session} (hs : s.Reachable) :
    Tables.initial.types.Extends s.tables.types := by
  induction hs with
  | fresh => exact Table.Extends.refl _
  | @parse s src path hs ih =>
    exact ih.trans (reachable_handlesValid hs src path).2.types

end Session

/-- In every session a run of parses reaches, each declared type's resolved parent is stored
before it and the six base types, stored first, have no parent. So from every stored type and
every name, the walk that asks whether a type is a given base type or extends it, and the walk
that finds a type's category, end within one step more than the number of types, with the
answers `isOfBaseType` and `categoryOf` give; assignability, the operand checks and the whole
check, built on these, end on every program. -/
theorem ancestry_walks_end {s : Session} (hs : s.Reachable) :
    (∀ i d p, s.tables.types.get? i = some d → d.parent = some (.resolved p) → p.index < i) ∧
    (∀ k (hk : k < baseTypeNames.length),
      (s.tables.types.get? k).map (fun d => (d.name, d.parent)) = some (baseTypeNames[k], none)) ∧
    ∀ r : Ref TypeId, (AnyRef.type r).ValidIn s.tables →
      (∀ base, s.tables.baseWalk base (s.tables.types.size + 1) r =
        some (s.tables.isOfBaseType r base)) ∧
      s.tables.categoryWalk (s.tables.types.size + 1) r = some (s.tables.categoryOf r) := by
  obtain ⟨-, hfirst⟩ := hs.parentsFirst
  refine ⟨hfirst, fun k hk => ?_, fun r hr => ?_⟩
  · -- the base types are the first entries of the table, which only grows
    obtain ⟨d, hd, hbase⟩ := Option.map_eq_some_iff.mp (Tables.initial_base k hk)
    rw [hs.extends_initial.get?_eq (Table.get?_lt hd), hd]
    exact congrArg some hbase
  · have hwalk := Tables.walk_ancestry hfirst hr
    exact ⟨fun base => Tables.baseWalk_of_walk base hwalk, Tables.categoryWalk_of_walk hwalk⟩

/-- The type `t` declared as extending itself is stored at position 6, after the base types; its
parent was read before `t` was registered, so the walk from it ends at once. -/
theorem self_parented_type_walks_end :
    (({ limits := {}, destructors := .builtin } : Session).parse "type t extends t\n" "a.j").1.Reachable ∧
    (AnyRef.type (.resolved ⟨6⟩)).ValidIn
      (({ limits := {}, destructors := .builtin } : Session).parse "type t extends t\n" "a.j").1.tables ∧
    (({ limits := {}, destructors := .builtin } : Session).parse "type t extends t\n" "a.j").1.tables.categoryWalk
      ((({ limits := {}, destructors := .builtin } : Session).parse "type t extends t\n" "a.j").1.tables.types.size + 1)
      (.resolved ⟨6⟩) =
      some ((({ limits := {}, destructors := .builtin } : Session).parse "type t extends t\n" "a.j").1.tables.categoryOf
        (.resolved ⟨6⟩)) := by
  have hs : (({ limits := {}, destructors := .builtin } : Session).parse "type t extends t\n" "a.j").1.Reachable :=
    .parse _ _ (.fresh {} .builtin)
  -- the fresh session's tables and limits, named so that the parse can be run on its own
  have ht : ({ limits := {}, destructors := .builtin } : Session).tables = Tables.initial := rfl
  have hl : ({ limits := {}, destructors := .builtin } : Session).limits = {} := rfl
  have hsize : (({ limits := {}, destructors := .builtin } : Session).parse
      "type t extends t\n" "a.j").1.tables.types.size = 7 := by
    rw [Session.parse_tables, ht, hl]
    cbv
  have hr : (AnyRef.type (.resolved ⟨6⟩)).ValidIn
      (({ limits := {}, destructors := .builtin } : Session).parse "type t extends t\n" "a.j").1.tables := by
    show 6 < _
    rw [hsize]
    decide
  exact ⟨hs, hr, ((ancestry_walks_end hs).2.2 _ hr).2⟩

end Jass
