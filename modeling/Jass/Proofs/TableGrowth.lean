import Mathlib
import Jass.Proofs.Parse.Accounting
/-!
# How the tables grow

A parse of a file from tables `ts` leaves tables that extend `ts`, with the added entries in
source order (`Accounted`). An accepted file accounts for exactly the entries added: no
registration of an alternative given up survives, and none is made twice. A rejected file added
only entries that stand before the error it reports. A session that accepts every file it reads
therefore holds the six base types and, beyond them, exactly the declarations of its files
(`accepted_session_sizes`).
-/

namespace Jass

open Jass.Parser Parse

/-- What a parse from tables `ts` leaves: tables that extend `ts` and hold the added entries in
source order; for an accepted file exactly the entries it refers to, and for a rejected one only
entries that stand before the reported error. -/
structure Accounted (ts : Tables) (r : Except ParseError File × Tables) : Prop where
  grows : ts.Extends r.2
  ordered : ts.AddedInOrder r.2
  accepted : ∀ f, r.1 = .ok f → (f.regs r.2).Fills ts r.2
  rejected : ∀ e, r.1 = .error e → ts.AddedBefore r.2 e.pos

theorem ParseState.report_eq_self {s : ParseState} {e : ParseError}
    (h : e.fault.isSyntax = false) : s.report e = e := by
  unfold ParseState.report
  split
  · next hsyn _ => simp [ParseFault.isSyntax, hsyn] at h
  · rfl

theorem posAt_of_lt {toks : Array Lexeme} {i : Nat} (h : i < toks.size) :
    posAt toks i = toks[i].pos := by
  simp [posAt, show min i (toks.size - 1) = i by omega, Array.getD_eq_getD_getElem?,
    Array.getElem?_eq_getElem h]

theorem tidy_start {toks : Array Lexeme} (h : Placed toks) (ts : Tables) (lim : Limits) :
    Tidy ts (ParseState.start toks ts lim) where
  placed := h
  ext := .refl ts
  cursor_le := le_rfl
  reach_lt := h.size_pos
  order := Tables.addedInOrder_self ts
  bound := Tables.addedBefore_self ts _

/-- Every parse of a file leaves the tables accounted for. A syntax error is reported at the
furthest token read, past everything registered; any other failure at the cursor, where
nothing registered stands. -/
theorem parseFile_accounted (src path : String) (ts : Tables) (lim : Limits) :
    Accounted ts (parseFile src path ts lim) := by
  unfold parseFile
  split
  · -- a lexical error: nothing read, nothing registered
    exact ⟨.refl ts, Tables.addedInOrder_self ts, (fun _ h => by cases h),
      fun _ _ => Tables.addedBefore_self ts _⟩
  · next toks hlex =>
    have hstart : (frozen ts ts).inv (ParseState.start toks ts lim) :=
      ⟨tidy_start (lex_placed hlex) ts lim, Tables.addedBefore_self ts _, rfl⟩
    obtain ⟨k, hk⟩ : ∃ k, budget toks.size = k + 1 := ⟨8 * toks.size + 15, by unfold budget; omega⟩
    rw [hk, Parser.runOn_eq]
    have h := registers_file k path hstart
    rcases hr : (file (k + 1) path).exec (ParseState.start toks ts lim) with ⟨e | f, t⟩ <;>
      rw [hr] at h <;> dsimp only
    · refine ⟨h.1.ext, h.1.order, (fun _ he => by cases he), fun e' he' => ?_⟩
      cases he'
      by_cases hsyn : e.fault.isSyntax = true
      · have hrep := report_at_furthest (furthest.fileRules.keeps_file _ path) (lex_back_eof hlex) hr hsyn
        obtain ⟨rule, heq⟩ := hrep.at_token
        have hbound := h.1.bound
        rw [← h.2.1.tokens] at hbound
        change ts.AddedBefore t.tables (posAt toks t.reach) at hbound
        rw [posAt_of_lt hrep.reach_lt] at hbound
        rw [heq]
        exact hbound
      · have hns : e.fault.isSyntax = false := by simpa using hsyn
        obtain ⟨hlive, hpos⟩ := h.2.2.1 hns
        rw [ParseState.report_eq_self hns, hpos]
        exact hlive
    · refine ⟨h.1.ext, h.1.order, fun f' hf => ?_, fun _ he => ?_⟩
      · cases hf
        exact h.2.2
      · cases he

/-! ## Sessions -/

def Regs.ofFiles (ts : Tables) (fs : List File) : Regs := (fs.map (·.regs ts)).foldr (· ++ ·) {}

namespace Regs

@[simp] theorem ofFiles_nil (ts : Tables) : ofFiles ts [] = {} := rfl

@[simp] theorem ofFiles_cons (ts : Tables) (f : File) (fs : List File) :
    ofFiles ts (f :: fs) = f.regs ts ++ ofFiles ts fs := rfl

theorem length_ofFiles (ts : Tables) (fs : List File) :
    (ofFiles ts fs).types.length = (fs.map (·.types.length)).sum ∧
      (ofFiles ts fs).vars.length = (fs.map fun f => (f.varSlots ts).length).sum ∧
      (ofFiles ts fs).funs.length =
        (fs.map fun f => f.natives.length + f.functions.length).sum := by
  induction fs with
  | nil => simp
  | cons f fs ih =>
    refine ⟨by simp [File.regs, ih.1], by simp [File.regs, ih.2.1], ?_⟩
    simp [File.regs, ih.2.2]
    omega

end Regs

theorem File.regs_of_extends {f : File} {ts ts' ts'' : Tables} (h : (f.regs ts').Fills ts ts')
    (h' : ts'.Extends ts'') : f.regs ts'' = f.regs ts' := by
  -- the file's signatures are in `ts'`, so later tables read the same parameters
  have hslots : ∀ fd ∈ f.functions, fd.varSlots ts'' = fd.varSlots ts' := fun fd hfd =>
    FunctionDef.varSlots_of_extends h' (h.fun_lt (by simpa [File.regs] using .inr ⟨fd, hfd, rfl⟩))
  simp only [File.regs, File.varSlots, List.flatMap_congr hslots]

theorem Session.parseAll_fills : ∀ (inputs : List (String × String)) (S : Session),
    (∀ r ∈ (S.parseAll inputs).2, r.isOk = true) →
    ∃ fs, (S.parseAll inputs).1.files = S.files ++ fs ∧
      (Regs.ofFiles (S.parseAll inputs).1.tables fs).Fills S.tables (S.parseAll inputs).1.tables
  | [], S, _ => ⟨[], by simp [Session.parseAll], Regs.fills_nil _⟩
  | (path, src) :: rest, S, hok => by
    have hacc := parseFile_accounted src path S.tables S.limits
    rcases hp : parseFile src path S.tables S.limits with ⟨_ | f, ts'⟩
    · -- a rejected file would show among the results
      simp [Session.parseAll, Session.parse, hp, Except.isOk, Except.toBool] at hok
    · rw [hp] at hacc
      set S₁ : Session := { S with tables := ts', files := S.files ++ [f] }
      have hall : S.parseAll ((path, src) :: rest) =
          ((S₁.parseAll rest).1, .ok f :: (S₁.parseAll rest).2) := by
        simp [Session.parseAll, Session.parse, hp, S₁]
      rw [hall] at hok ⊢
      obtain ⟨fs, hfiles, hfills⟩ :=
        parseAll_fills rest _ fun r hr => hok r (List.mem_cons_of_mem _ hr)
      have hf := hacc.accepted f rfl
      refine ⟨f :: fs, by simp [hfiles, S₁], ?_⟩
      rw [Regs.ofFiles_cons, File.regs_of_extends hf hfills.grows]
      exact hf.append hfills

theorem accepted_session_sizes {lim : Limits} {dtors : Destructors}
    {inputs : List (String × String)} {S : Session} {rs : List (Except ParseError File)}
    (hrun : ({ limits := lim, destructors := dtors } : Session).parseAll inputs = (S, rs))
    (hok : ∀ r ∈ rs, r.isOk = true) :
    S.tables.types.size = 6 + (S.files.map (·.types.length)).sum ∧
      S.tables.vars.size = (S.files.map fun f => (f.varSlots S.tables).length).sum ∧
      S.tables.funs.size = (S.files.map fun f => f.natives.length + f.functions.length).sum := by
  obtain ⟨fs, hfiles, hfills⟩ := Session.parseAll_fills inputs _ (by rw [hrun]; exact hok)
  rw [hrun] at hfiles hfills
  simp only [List.nil_append] at hfiles
  subst hfiles
  obtain ⟨htypes, hvars, hfuns⟩ := Regs.length_ofFiles S.tables S.files
  have hinit : Tables.initial.types.size = 6 ∧ Tables.initial.vars.size = 0 ∧
      Tables.initial.funs.size = 0 := by decide
  refine ⟨?_, ?_, ?_⟩
  · rw [hfills.types_size, htypes, hinit.1]
  · rw [hfills.vars_size, hvars, hinit.2.1, Nat.zero_add]
  · rw [hfills.funs_size, hfuns, hinit.2.2, Nat.zero_add]

/-- What parsing leaves registered: for every file and tables, the tables grow in source order;
an accepted file accounts for exactly the entries added, a rejected one added only entries that
stand before its reported error; and a session that accepts every file it reads holds exactly
the base types and the declarations of its files. -/
theorem registrations_follow_the_file :
    (∀ (src path : String) (ts : Tables) (lim : Limits), Accounted ts (parseFile src path ts lim)) ∧
    (∀ (lim : Limits) (dtors : Destructors) (inputs : List (String × String)) (S : Session)
      (rs : List (Except ParseError File)),
      ({ limits := lim, destructors := dtors } : Session).parseAll inputs = (S, rs) →
      (∀ r ∈ rs, r.isOk = true) →
      S.tables.types.size = 6 + (S.files.map (·.types.length)).sum ∧
        S.tables.vars.size = (S.files.map fun f => (f.varSlots S.tables).length).sum ∧
        S.tables.funs.size = (S.files.map fun f => f.natives.length + f.functions.length).sum) :=
  ⟨parseFile_accounted, fun _ _ _ _ _ hrun hok => accepted_session_sizes hrun hok⟩

set_option maxRecDepth 100000 in
theorem type_and_native_files_fill_the_tables :
    (∀ r ∈ (({ limits := {}, destructors := .builtin } : Session).parseAll
      [("a.j", "type a extends handle\n"), ("b.j", "native f takes nothing returns a\n")]).2,
      r.isOk = true) ∧
    (({ limits := {}, destructors := .builtin } : Session).parseAll
      [("a.j", "type a extends handle\n"), ("b.j", "native f takes nothing returns a\n")]).1.tables.types.size =
      6 + ((({ limits := {}, destructors := .builtin } : Session).parseAll
        [("a.j", "type a extends handle\n"), ("b.j", "native f takes nothing returns a\n")]).1.files.map
          (·.types.length)).sum ∧
    (({ limits := {}, destructors := .builtin } : Session).parseAll
      [("a.j", "type a extends handle\n"), ("b.j", "native f takes nothing returns a\n")]).1.tables.vars.size =
      ((({ limits := {}, destructors := .builtin } : Session).parseAll
        [("a.j", "type a extends handle\n"), ("b.j", "native f takes nothing returns a\n")]).1.files.map
          fun f => (f.varSlots (({ limits := {}, destructors := .builtin } : Session).parseAll
            [("a.j", "type a extends handle\n"), ("b.j", "native f takes nothing returns a\n")]).1.tables).length).sum ∧
    (({ limits := {}, destructors := .builtin } : Session).parseAll
      [("a.j", "type a extends handle\n"), ("b.j", "native f takes nothing returns a\n")]).1.tables.funs.size =
      ((({ limits := {}, destructors := .builtin } : Session).parseAll
        [("a.j", "type a extends handle\n"), ("b.j", "native f takes nothing returns a\n")]).1.files.map
          fun f => f.natives.length + f.functions.length).sum := by
  -- each file is parsed on its own, from the tables the one before it left
  have ht : ({ limits := {}, destructors := .builtin } : Session).tables = Tables.initial := rfl
  have hl : ({ limits := {}, destructors := .builtin } : Session).limits = {} := rfl
  have h₁ : (parseFile "type a extends handle\n" "a.j" Tables.initial {}).1.isOk = true := by cbv
  have h₂ : (parseFile "native f takes nothing returns a\n" "b.j"
      (parseFile "type a extends handle\n" "a.j" Tables.initial {}).2 {}).1.isOk = true := by cbv
  have hok : ∀ r ∈ (({ limits := {}, destructors := .builtin } : Session).parseAll
      [("a.j", "type a extends handle\n"), ("b.j", "native f takes nothing returns a\n")]).2,
      r.isOk = true := by
    simp only [Session.parseAll, List.mem_cons, List.not_mem_nil, or_false, forall_eq_or_imp,
      forall_eq]
    rw [Session.parse_result, Session.parse_result, Session.parse_tables, Session.parse_limits, ht, hl]
    exact ⟨h₁, h₂⟩
  generalize hrun : ({ limits := {}, destructors := .builtin } : Session).parseAll
    [("a.j", "type a extends handle\n"), ("b.j", "native f takes nothing returns a\n")] = p at hok ⊢
  obtain ⟨S, rs⟩ := p
  exact ⟨hok, registrations_follow_the_file.2 {} .builtin _ S rs hrun hok⟩

end Jass
