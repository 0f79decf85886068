import Mathlib
import Jass.Proofs.Lex.Order
import Jass.Proofs.Parse.Furthest
import Jass.Proofs.Names
/-!
# What a parse leaves registered

A parse registers declarations as it reads them and keeps them when a rule around them fails.
This module follows the tables through a parse that starts from tables `ts₀`.

Every entry added since `ts₀` stands before the furthest token reached, and the entries of each
table stand in source order: a function's parameters share its position, and no other two
entries do (`Tables.AddedInOrder`). While the parse reads on, nothing registered stands at or
after the cursor (`Live`), and a run that registers nothing keeps that (`frozen`). A run that
may register is described by `Registers`: what it leaves on success, and what a failure leaves.
-/

namespace Jass

open Jass.Parser Parse Discipline

/-! ## Entries added to a table -/

namespace Table

variable {α : Type}

def added (t t₀ : Table α) : List α := t.entries.toList.drop t₀.size

@[simp] theorem added_self (t : Table α) : t.added t = [] := by
  simp [added, size]

theorem added_insert {t t₀ : Table α} (h : t₀.size ≤ t.size) (n : String) (x : α) :
    (t.insert n x).1.added t₀ = t.added t₀ ++ [x] := by
  simp only [added, insert, Array.toList_push]
  exact List.drop_append_of_le_length (by simpa [size] using h)

theorem added_push {t t₀ : Table α} (h : t₀.size ≤ t.size) (x : α) :
    (t.push x).1.added t₀ = t.added t₀ ++ [x] := by
  simp only [added, push, Array.toList_push]
  exact List.drop_append_of_le_length (by simpa [size] using h)

end Table

namespace Tables

structure AddedBefore (ts₀ ts : Tables) (q : Pos) : Prop where
  types : ∀ d ∈ ts.types.added ts₀.types, ∃ p, d.pos = some p ∧ p < q
  vars : ∀ d ∈ ts.vars.added ts₀.vars, d.pos < q
  funs : ∀ d ∈ ts.funs.added ts₀.funs, d.pos < q

/-- The entries `ts` holds beyond those of `ts₀` stand in source order, table by table: types
and signatures strictly; variables too, except the parameters stored for a signature, which
share its position. The variables at a signature's position are none or exactly its
parameters, in order. -/
structure AddedInOrder (ts₀ ts : Tables) : Prop where
  types : ((ts.types.added ts₀.types).filterMap (·.pos)).Pairwise (· < ·)
  funs : ((ts.funs.added ts₀.funs).map (·.pos)).Pairwise (· < ·)
  vars : (ts.vars.added ts₀.vars).Pairwise fun x y =>
    x.pos < y.pos ∨ x.pos = y.pos ∧ ∃ d ∈ ts.funs.added ts₀.funs, d.pos = x.pos
  params : ∀ d ∈ ts.funs.added ts₀.funs,
    (ts.vars.added ts₀.vars).filter (·.pos = d.pos) = [] ∨
      (ts.vars.added ts₀.vars).filter (·.pos = d.pos) = d.params.map (·.decl d.pos)

variable {ts₀ ts ts' : Tables} {p q : Pos}

theorem addedBefore_self (ts : Tables) (q : Pos) : ts.AddedBefore ts q :=
  ⟨by simp, by simp, by simp⟩

theorem addedInOrder_self (ts : Tables) : ts.AddedInOrder ts :=
  ⟨by simp, by simp, by simp, by simp⟩

theorem AddedBefore.mono (h : ts₀.AddedBefore ts p) (hpq : p ≤ q) : ts₀.AddedBefore ts q where
  types d hd := (h.types d hd).imp fun _ h' => ⟨h'.1, h'.2.trans_le hpq⟩
  vars d hd := (h.vars d hd).trans_le hpq
  funs d hd := (h.funs d hd).trans_le hpq

/-! ### Registering one entry

A declaration registered at position `p`, while every entry added before it stands before `p`,
keeps the entries in order; they all stand before any later position. -/

theorem AddedBefore.addType (h : ts₀.AddedBefore ts p) {d : TypeDecl} (hd : d.pos = some p)
    (hpq : p < q) (htypes : ts'.types.added ts₀.types = ts.types.added ts₀.types ++ [d])
    (hvars : ts'.vars = ts.vars) (hfuns : ts'.funs = ts.funs) : ts₀.AddedBefore ts' q where
  types x hx := by
    rw [htypes, List.mem_append, List.mem_singleton] at hx
    rcases hx with hx | rfl
    · exact (h.types x hx).imp fun _ h' => ⟨h'.1, h'.2.trans hpq⟩
    · exact ⟨p, hd, hpq⟩
  vars x hx := (h.vars x (hvars ▸ hx)).trans hpq
  funs x hx := (h.funs x (hfuns ▸ hx)).trans hpq

theorem AddedInOrder.addType (ho : ts₀.AddedInOrder ts) (h : ts₀.AddedBefore ts p) {d : TypeDecl}
    (hd : d.pos = some p) (htypes : ts'.types.added ts₀.types = ts.types.added ts₀.types ++ [d])
    (hvars : ts'.vars = ts.vars) (hfuns : ts'.funs = ts.funs) : ts₀.AddedInOrder ts' where
  types := by
    rw [htypes, List.filterMap_append, List.filterMap_cons, hd, List.filterMap_nil,
      List.pairwise_append]
    refine ⟨ho.types, List.pairwise_singleton _ _, fun a ha b hb => ?_⟩
    obtain ⟨x, hx, hxa⟩ := List.mem_filterMap.1 ha
    obtain ⟨r, hr, hrp⟩ := h.types x hx
    rw [List.mem_singleton] at hb
    rw [hxa] at hr
    cases hr
    exact hb ▸ hrp
  funs := hfuns ▸ ho.funs
  vars := hvars ▸ hfuns ▸ ho.vars
  params := hvars ▸ hfuns ▸ ho.params

theorem AddedBefore.addVar (h : ts₀.AddedBefore ts p) {x : VarDecl} (hx : x.pos = p)
    (hpq : p < q) (htypes : ts'.types = ts.types)
    (hvars : ts'.vars.added ts₀.vars = ts.vars.added ts₀.vars ++ [x]) (hfuns : ts'.funs = ts.funs) :
    ts₀.AddedBefore ts' q where
  types y hy := (h.types y (htypes ▸ hy)).imp fun _ h' => ⟨h'.1, h'.2.trans hpq⟩
  vars y hy := by
    rw [hvars, List.mem_append, List.mem_singleton] at hy
    rcases hy with hy | rfl
    · exact (h.vars y hy).trans hpq
    · exact hx ▸ hpq
  funs y hy := (h.funs y (hfuns ▸ hy)).trans hpq

theorem AddedInOrder.addVar (ho : ts₀.AddedInOrder ts) (h : ts₀.AddedBefore ts p) {x : VarDecl}
    (hx : x.pos = p) (htypes : ts'.types = ts.types)
    (hvars : ts'.vars.added ts₀.vars = ts.vars.added ts₀.vars ++ [x]) (hfuns : ts'.funs = ts.funs) :
    ts₀.AddedInOrder ts' where
  types := htypes ▸ ho.types
  funs := hfuns ▸ ho.funs
  vars := by
    rw [hvars, hfuns, List.pairwise_append]
    refine ⟨ho.vars, List.pairwise_singleton _ _, fun y hy z hz => ?_⟩
    rw [List.mem_singleton] at hz
    subst hz
    exact .inl (hx ▸ h.vars y hy)
  params d hd := by
    rw [hfuns] at hd
    -- the new variable stands after every signature registered before it
    have hne : ¬x.pos = d.pos := by
      intro he
      have hlt := h.funs d hd
      rw [← he, hx] at hlt
      exact lt_irrefl p hlt
    rw [hvars, List.filter_append, List.filter_singleton, decide_eq_false hne, cond_false,
      List.append_nil]
    exact ho.params d hd

theorem AddedBefore.addFun (h : ts₀.AddedBefore ts p) {d : FunDecl} (hd : d.pos = p)
    {xs : List VarDecl} (hxs : ∀ x ∈ xs, x.pos = p) (hpq : p < q) (htypes : ts'.types = ts.types)
    (hvars : ts'.vars.added ts₀.vars = ts.vars.added ts₀.vars ++ xs)
    (hfuns : ts'.funs.added ts₀.funs = ts.funs.added ts₀.funs ++ [d]) :
    ts₀.AddedBefore ts' q where
  types y hy := (h.types y (htypes ▸ hy)).imp fun _ h' => ⟨h'.1, h'.2.trans hpq⟩
  vars y hy := by
    rw [hvars, List.mem_append] at hy
    rcases hy with hy | hy
    · exact (h.vars y hy).trans hpq
    · exact hxs y hy ▸ hpq
  funs y hy := by
    rw [hfuns, List.mem_append, List.mem_singleton] at hy
    rcases hy with hy | rfl
    · exact (h.funs y hy).trans hpq
    · exact hd ▸ hpq

theorem AddedInOrder.addFun (ho : ts₀.AddedInOrder ts) (h : ts₀.AddedBefore ts p) {d : FunDecl}
    (hd : d.pos = p) {xs : List VarDecl} (hxs : xs = [] ∨ xs = d.params.map (·.decl d.pos))
    (htypes : ts'.types = ts.types)
    (hvars : ts'.vars.added ts₀.vars = ts.vars.added ts₀.vars ++ xs)
    (hfuns : ts'.funs.added ts₀.funs = ts.funs.added ts₀.funs ++ [d]) :
    ts₀.AddedInOrder ts' := by
  have hxp : ∀ x ∈ xs, x.pos = p := by
    rcases hxs with rfl | rfl
    · simp
    · intro x hx
      obtain ⟨r, -, rfl⟩ := List.mem_map.1 hx
      exact hd
  -- the variables registered before stand before `p`, so none of them is at `p`
  have hold : (ts.vars.added ts₀.vars).filter (·.pos = p) = [] := by
    refine List.filter_eq_nil_iff.2 fun y hy hyp => ?_
    exact (lt_irrefl p) (of_decide_eq_true hyp ▸ h.vars y hy)
  refine ⟨htypes ▸ ho.types, ?_, ?_, ?_⟩
  · rw [hfuns, List.map_append, List.pairwise_append]
    refine ⟨ho.funs, List.pairwise_singleton _ _, fun a ha b hb => ?_⟩
    obtain ⟨y, hy, rfl⟩ := List.mem_map.1 ha
    simp only [List.map_cons, List.map_nil, List.mem_singleton] at hb
    exact hb ▸ hd ▸ h.funs y hy
  · rw [hvars, hfuns, List.pairwise_append]
    refine ⟨ho.vars.imp fun hxy => hxy.imp_right fun hh =>
      ⟨hh.1, hh.2.imp fun _ he => ⟨List.mem_append_left _ he.1, he.2⟩⟩, ?_,
      fun y hy z hz => .inl ?_⟩
    · -- the parameters share the signature's position
      refine List.pairwise_of_forall_mem_list fun y hy z hz => .inr ⟨?_, d, ?_, ?_⟩
      · rw [hxp y hy, hxp z hz]
      · simp
      · rw [hd, hxp y hy]
    · exact (hxp z hz).symm ▸ h.vars y hy
  · intro e he
    rw [hfuns, List.mem_append, List.mem_singleton] at he
    rw [hvars, List.filter_append]
    rcases he with he | rfl
    · -- an earlier signature stands before `p`, where the new variables are
      have hlt := h.funs e he
      have hnew : xs.filter (·.pos = e.pos) = [] := by
        refine List.filter_eq_nil_iff.2 fun y hy hye => ?_
        rw [hxp y hy] at hye
        exact (lt_irrefl p) (of_decide_eq_true hye ▸ hlt)
      rw [hnew, List.append_nil]
      exact ho.params e he
    · have hall : xs.filter (·.pos = e.pos) = xs :=
        List.filter_eq_self.2 fun y hy => decide_eq_true (hd ▸ hxp y hy)
      rw [hd, hold, List.nil_append, ← hd, hall]
      exact hxs

end Tables

/-! ## States of a parse -/

/-- What every state of a parse from tables `ts₀` keeps: its tokens stand in order, its tables
extend `ts₀`, the cursor stands at or before the furthest index reached, which is a token, and
what was added stands in order and before the token at that index. -/
structure Tidy (ts₀ : Tables) (s : ParseState) : Prop where
  placed : Placed s.tokens
  ext : ts₀.Extends s.tables
  cursor_le : s.cursor ≤ s.reach
  reach_lt : s.reach < s.tokens.size
  order : ts₀.AddedInOrder s.tables
  bound : ts₀.AddedBefore s.tables (posAt s.tokens s.reach)

/-- Nothing registered since `ts₀` stands at or after the cursor. -/
def Live (ts₀ : Tables) (s : ParseState) : Prop := ts₀.AddedBefore s.tables s.current.pos

structure Grows (s t : ParseState) : Prop where
  tokens : s.tokens = t.tokens
  tables : s.tables.Extends t.tables
  cursor : s.cursor ≤ t.cursor
  reach : s.reach ≤ t.reach

/-- A failure that ends the parse stands at the cursor, and nothing registered stands at or after
it. -/
def Halts (ts₀ : Tables) (e : ParseError) (t : ParseState) : Prop :=
  e.fault.isSyntax = false → Live ts₀ t ∧ e.pos = t.current.pos

variable {ts₀ : Tables} {s t : ParseState}

theorem Grows.refl (s : ParseState) : Grows s s := ⟨rfl, .refl _, le_rfl, le_rfl⟩

theorem Grows.trans {u : ParseState} (h : Grows s t) (h' : Grows t u) : Grows s u :=
  ⟨h.tokens.trans h'.tokens, h.tables.trans h'.tables, h.cursor.trans h'.cursor,
    h.reach.trans h'.reach⟩

theorem Tidy.of_eq (hs : Tidy ts₀ s) (htok : t.tokens = s.tokens) (htab : t.tables = s.tables)
    (hcur : t.cursor = s.cursor) (hreach : t.reach = s.reach) : Tidy ts₀ t where
  placed := htok ▸ hs.placed
  ext := htab ▸ hs.ext
  cursor_le := hcur ▸ hreach ▸ hs.cursor_le
  reach_lt := htok ▸ hreach ▸ hs.reach_lt
  order := htab ▸ hs.order
  bound := htok ▸ hreach ▸ htab ▸ hs.bound

theorem Live.of_eq (hl : Live ts₀ s) (htok : t.tokens = s.tokens) (htab : t.tables = s.tables)
    (hcur : t.cursor = s.cursor) : Live ts₀ t := by
  unfold Live
  rw [ParseState.current_pos, htok, htab, hcur]
  exact hl

theorem Tidy.record (hs : Tidy ts₀ s) (e : ParseError) : Tidy ts₀ (s.record e) :=
  hs.of_eq rfl rfl rfl rfl

theorem Live.record (hl : Live ts₀ s) (e : ParseError) : Live ts₀ (s.record e) :=
  hl.of_eq rfl rfl rfl

theorem Tidy.moveTo (hs : Tidy ts₀ s) {c : Nat} (hlt : c < s.tokens.size) :
    Tidy ts₀ (s.moveTo c) where
  placed := hs.placed
  ext := hs.ext
  cursor_le := le_max_right _ _
  reach_lt := max_lt hs.reach_lt hlt
  order := hs.order
  bound := hs.bound.mono (hs.placed.posAt_mono (le_max_left _ _))

theorem Live.moveTo (hs : Tidy ts₀ s) (hl : Live ts₀ s) {c : Nat} (hc : s.cursor ≤ c) :
    Live ts₀ (s.moveTo c) :=
  Tables.AddedBefore.mono hl (hs.placed.posAt_mono hc)

theorem Tidy.rewind {s₀ : ParseState} (hs₀ : Tidy ts₀ s₀) (hs : Tidy ts₀ s) (hg : Grows s₀ s) :
    Tidy ts₀ { s with cursor := s₀.cursor } :=
  { hs with cursor_le := hs₀.cursor_le.trans hg.reach }

theorem Tidy.pos_lt_stepped (hs : Tidy ts₀ s) (hne : s.current.token ≠ .eof) :
    s.current.pos < s.stepped.current.pos := by
  have hlt := hs.placed.lt_last hne
  rw [ParseState.current_pos, ParseState.current_pos]
  refine hs.placed.posAt_lt hne ?_
  show s.cursor < min (s.cursor + 1) s.tokens.size
  omega

theorem Tidy.stepped (hs : Tidy ts₀ s) (hne : s.current.token ≠ .eof) : Tidy ts₀ s.stepped := by
  have hlt := hs.placed.lt_last hne
  exact hs.moveTo (by omega)

theorem Tidy.skipped (hs : Tidy ts₀ s) : Tidy ts₀ s.skipped :=
  hs.moveTo (skipLineBreaks_lt hs.placed.last (hs.cursor_le.trans_lt hs.reach_lt))

/-! ## Runs that register nothing -/

/-- The runs that register nothing, over tables `ts`, in a parse from `ts₀`: states stay tidy
and live, the cursor and the furthest index only grow, and a failure that ends the parse stands
at the cursor. -/
def frozen (ts₀ ts : Tables) : Discipline where
  inv s := Tidy ts₀ s ∧ Live ts₀ s ∧ s.tables = ts
  le s t := s.tokens = t.tokens ∧ s.cursor ≤ t.cursor ∧ s.reach ≤ t.reach
  err e t := e.fault.isSyntax = false → e.pos = t.current.pos
  ref _ _ := True
  le_refl _ := ⟨rfl, le_rfl, le_rfl⟩
  le_trans h h' := ⟨h.1.trans h'.1, h.2.1.trans h'.2.1, h.2.2.trans h'.2.2⟩
  ref_le _ _ := trivial
  step s hs hne := by
    have hlt := hs.1.placed.lt_last hne
    have hc : s.cursor ≤ min (s.cursor + 1) s.tokens.size := by omega
    exact ⟨⟨hs.1.stepped hne, hs.2.1.moveTo hs.1 hc, hs.2.2⟩, rfl, hc, le_max_left _ _⟩
  skip s hs := by
    have hc := le_skipLineBreaks s.tokens s.cursor
    exact ⟨⟨hs.1.skipped, hs.2.1.moveTo hs.1 hc, hs.2.2⟩, rfl, hc, le_max_left _ _⟩
  fail s rule hs :=
    ⟨⟨hs.1.record _, hs.2.1.record _, hs.2.2⟩, ⟨rfl, le_rfl, le_rfl⟩, fun h => by
      simp [ParseState.expected, ParseFault.isSyntax, ParseFault.errorClass] at h⟩
  halt _ _ _ _ _ := rfl
  rewind {s₀ s _} hs₀ hs hle _ _ := by
    have hg : Grows s₀ s := ⟨hle.1, hs.2.2 ▸ hs₀.2.2 ▸ .refl _, hle.2.1, hle.2.2⟩
    refine ⟨⟨hs₀.1.rewind hs.1 hg, ?_, hs.2.2⟩, hle.1, le_rfl, hle.2.2⟩
    exact hs₀.2.1.of_eq hle.1.symm (hs.2.2.trans hs₀.2.2.symm) rfl
  var _ _ _ := trivial
  fn _ _ _ := trivial
  type _ _ _ := trivial

/-! ## Runs that may register -/

/-- What a run from `s` that may register declarations ends in: a tidy later state; on
success, `Q` of the value; on failure, `F` of the state, and a failure that ends the parse
stands at the cursor with nothing registered at or after it. -/
def Registers {α : Type} (ts₀ : Tables) (s : ParseState) (Q : α → ParseState → Prop)
    (F : ParseState → Prop) : Except ParseError α × ParseState → Prop
  | (.ok a, t) => Tidy ts₀ t ∧ Grows s t ∧ Q a t
  | (.error e, t) => Tidy ts₀ t ∧ Grows s t ∧ Halts ts₀ e t ∧ F t

section

variable {α β : Type} {Q : α → ParseState → Prop} {F : ParseState → Prop}
  {r : Except ParseError α × ParseState}

theorem Registers.le {s' : ParseState} (h : Registers ts₀ s' Q F r) (hg : Grows s s') :
    Registers ts₀ s Q F r := by
  rcases r with ⟨_ | _, t⟩
  · exact ⟨h.1, hg.trans h.2.1, h.2.2⟩
  · exact ⟨h.1, hg.trans h.2.1, h.2.2⟩

theorem Registers.mono {Q' : α → ParseState → Prop} {F' : ParseState → Prop}
    (h : Registers ts₀ s Q F r) (hQ : ∀ a t, Q a t → Q' a t) (hF : ∀ t, F t → F' t) :
    Registers ts₀ s Q' F' r := by
  rcases r with ⟨_ | _, t⟩
  · exact ⟨h.1, h.2.1, h.2.2.1, hF _ h.2.2.2⟩
  · exact ⟨h.1, h.2.1, hQ _ _ h.2.2⟩

theorem registers_pure {a : α} (hs : Tidy ts₀ s) (ha : Q a s) :
    Registers ts₀ s Q F ((pure a : Parser α).exec s) :=
  ⟨hs, .refl s, ha⟩

theorem Registers.bind {p : Parser α} {f : α → Parser β} {Q₁ : α → ParseState → Prop}
    {Q : β → ParseState → Prop} (hp : Registers ts₀ s Q₁ F (p.exec s))
    (hf : ∀ a t, Tidy ts₀ t → Grows s t → Q₁ a t → Registers ts₀ t Q F ((f a).exec t)) :
    Registers ts₀ s Q F ((p >>= f).exec s) := by
  rw [exec_bind]
  rcases hr : p.exec s with ⟨_ | a, t⟩ <;> rw [hr] at hp
  · exact hp
  · exact (hf a t hp.1 hp.2.1 hp.2.2).le hp.2.1

theorem registers_of_post {ts : Tables} (h : (frozen ts₀ ts).Post Q s r) (hts : s.tables = ts) :
    Registers ts₀ s (fun a t => Live ts₀ t ∧ t.tables = ts ∧ Q a t) (fun t => t.tables = ts) r := by
  have hg : ∀ t, (frozen ts₀ ts).inv t → (frozen ts₀ ts).le s t → Grows s t := fun t ht hle =>
    ⟨hle.1, hts ▸ ht.2.2 ▸ .refl _, hle.2.1, hle.2.2⟩
  rcases r with ⟨_ | a, t⟩
  · exact ⟨h.1.1, hg t h.1 h.2.1, fun hne => ⟨h.1.2.1, h.2.2 hne⟩, h.1.2.2⟩
  · exact ⟨h.1.1, hg t h.1 h.2.1, h.1.2.1, h.1.2.2, h.2.2⟩

theorem registers_bind_frozen {ts : Tables} {p : Parser α} {f : α → Parser β}
    {Q₁ : α → ParseState → Prop} {Q : β → ParseState → Prop}
    (hp : (frozen ts₀ ts).Post Q₁ s (p.exec s)) (hts : s.tables = ts)
    (hF : ∀ t, t.tables = ts → F t)
    (hf : ∀ a t, (frozen ts₀ ts).inv t → Grows s t → Q₁ a t → Registers ts₀ t Q F ((f a).exec t)) :
    Registers ts₀ s Q F ((p >>= f).exec s) :=
  ((registers_of_post hp hts).mono (fun _ _ h => h) hF).bind
    fun a t ht hg ha => hf a t ⟨ht, ha.1, ha.2.1⟩ hg ha.2.2

theorem registers_attempt {p : Parser α} (hs : Tidy ts₀ s) (h : Registers ts₀ s Q F (p.exec s))
    (hF : ∀ t, F t → F { t with cursor := s.cursor }) :
    Registers ts₀ s (fun o t => (∀ a, o = some a → Q a t) ∧ (o = none → F t ∧ t.cursor = s.cursor))
      F ((attempt p).exec s) := by
  rw [exec_attempt]
  rcases hr : p.exec s with ⟨_ | a, t⟩ <;> rw [hr] at h
  · dsimp only
    split
    · refine ⟨hs.rewind h.1 h.2.1, ⟨h.2.1.tokens, h.2.1.tables, le_rfl, h.2.1.reach⟩, ?_, ?_⟩
      · intro a ha
        cases ha
      · exact fun _ => ⟨hF t h.2.2.2, rfl⟩
    · exact h
  · exact ⟨h.1, h.2.1, fun a' ha => by cases ha; exact h.2.2, fun ha => by cases ha⟩

end

end Jass
