import Mathlib
import Jass.Proofs.Names
/-!
# A table is the list of what was done to it

A table changes by two operations: `insert` stores a declaration and registers it under its
name, `push` stores it without a name. Each answers with the handle of the new position, which
keeps the position's low 32 bits. Read through the list of operations that built it from the
empty table, a table is that list: the `i`-th operation returned the handle of `i`; the table
holds one entry per operation, in operation order; a name is answered by the last operation
that registered it, so a later registration hides an earlier one and a push changes no answer.
While there are at most `2 ^ 32` operations the handles are distinct and each one finds its own
operation's declaration (`table_refines_operation_list`); operation `2 ^ 32` gets the handle of
operation `0` and finds its declaration (`handles_repeat_past_two_pow_32_operations`).

The invariant `Op.Models` carries the entries and the answers; one lemma says what an
operation does to it (`Op.Models.apply`) and the rest follows by induction on the list.
-/
namespace Jass

namespace Table

variable {α ι : Type}

/-- An operation on a table: store a declaration under its name, or store it without one. -/
inductive Op (α : Type) where
  | insert (x : α)
  | push (x : α)

/-- What a name read against the table stands for: the position registered under it, or the
name itself when none is. The three tables of a session resolve names this way. -/
def resolve (t : Table α) (mk : Nat → ι) (n : String) : Ref ι :=
  match t.lookup? n with
  | some i => .resolved (mk i)
  | none => .unresolved n

namespace Op

variable (name : α → String)

def decl : Op α → α
  | .insert x | .push x => x

/-- The name an operation registers: an insert registers its declaration's name, a push none. -/
def registers : Op α → Option String
  | .insert x => some (name x)
  | .push _ => none

def apply (t : Table α) : Op α → Table α × Handle
  | .insert x => t.insertHandle (name x) x
  | .push x => t.pushHandle x

/-- The operations `ops` applied in order from `t`: the table after them, and the handles
they returned. -/
def run (t : Table α) (ops : List (Op α)) : Table α × List Handle :=
  ops.foldl (fun r op => ((op.apply name r.1).1, r.2 ++ [(op.apply name r.1).2])) (t, [])

/-- The positions in `ops` of the operations that register the name `n`. -/
def registrations (ops : List (Op α)) (n : String) : Set Nat :=
  {i | ∃ op, ops[i]? = some op ∧ op.registers name = some n}

/-- The table `t` holds the declarations of `ops` in order, and answers each name by the last
operation of `ops` that registered it. -/
structure Models (ops : List (Op α)) (t : Table α) : Prop where
  entries : t.entries.toList = ops.map decl
  lookup?_some : ∀ n i, t.lookup? n = some i ↔ IsGreatest (registrations name ops n) i
  lookup?_none : ∀ n, t.lookup? n = none ↔ registrations name ops n = ∅

variable {name} {t : Table α} {ops : List (Op α)} {op : Op α} {n : String} {i : Nat}

/-! ## One operation -/

@[simp] theorem apply_handle (t : Table α) (op : Op α) :
    (op.apply name t).2 = Handle.new t.size := by
  cases op <;> rfl

theorem apply_entries (t : Table α) (op : Op α) :
    (op.apply name t).1.entries.toList = t.entries.toList ++ [op.decl] := by
  cases op <;> simp [apply, decl, insertHandle, pushHandle, Table.insert, Table.push]

theorem apply_lookup? (t : Table α) (op : Op α) (m : String) :
    (op.apply name t).1.lookup? m = if op.registers name = some m then some t.size else t.lookup? m := by
  cases op with
  | insert x => simp [apply, registers, insertHandle, lookup?_insert]
  | push x => simp [apply, registers, pushHandle]

theorem run_append_singleton (t : Table α) (ops : List (Op α)) (op : Op α) :
    run name t (ops ++ [op]) =
      ((op.apply name (run name t ops).1).1, (run name t ops).2 ++ [(op.apply name (run name t ops).1).2]) := by
  simp [run, List.foldl_append]

/-! ## Registrations -/

theorem registrations_lt (h : i ∈ registrations name ops n) : i < ops.length := by
  obtain ⟨_, hi, -⟩ := h
  exact (List.getElem?_eq_some_iff.mp hi).1

theorem mem_registrations_append :
    i ∈ registrations name (ops ++ [op]) n ↔
      i ∈ registrations name ops n ∨ i = ops.length ∧ op.registers name = some n := by
  simp only [registrations, Set.mem_ofPred_eq, List.getElem?_append, List.getElem?_singleton]
  by_cases hi : i < ops.length
  · simp [hi, Nat.ne_of_lt hi]
  · by_cases he : i = ops.length
    · subst he
      simp
    · simp [hi, he, show i - ops.length ≠ 0 by omega]

theorem registrations_append_of_ne (h : op.registers name ≠ some n) :
    registrations name (ops ++ [op]) n = registrations name ops n := by
  ext i
  rw [mem_registrations_append]
  exact ⟨fun hi => hi.resolve_right fun hr => h hr.2, .inl⟩

theorem isGreatest_registrations_append (h : op.registers name = some n) :
    IsGreatest (registrations name (ops ++ [op]) n) i ↔ i = ops.length := by
  have hlast : ops.length ∈ registrations name (ops ++ [op]) n :=
    mem_registrations_append.mpr (.inr ⟨rfl, h⟩)
  have hbound : ops.length ∈ upperBounds (registrations name (ops ++ [op]) n) := by
    intro j hj
    rcases mem_registrations_append.mp hj with hj | ⟨rfl, -⟩
    · exact (registrations_lt hj).le
    · exact le_rfl
  constructor
  · intro hi
    exact le_antisymm (hbound hi.1) (hi.2 hlast)
  · rintro rfl
    exact ⟨hlast, hbound⟩

/-! ## The invariant -/

theorem models_nil : Models name [] ({} : Table α) where
  entries := rfl
  lookup?_some n i := by simp [lookup?, registrations, IsGreatest]
  lookup?_none n := by simp [lookup?, registrations]

theorem Models.size (h : Models name ops t) : t.size = ops.length := by
  rw [Table.size, ← Array.length_toList, h.entries, List.length_map]

theorem Models.get? (h : Models name ops t) (i : Nat) : t.get? i = (ops.map decl)[i]? := by
  rw [Table.get?, ← Array.getElem?_toList, h.entries]

theorem Models.apply (h : Models name ops t) (op : Op α) :
    Models name (ops ++ [op]) (op.apply name t).1 where
  entries := by rw [apply_entries, h.entries, List.map_append, List.map_singleton]
  lookup?_some m i := by
    rw [apply_lookup?]
    by_cases hr : op.registers name = some m
    · rw [if_pos hr, isGreatest_registrations_append hr, h.size, Option.some_inj, eq_comm]
    · rw [if_neg hr, registrations_append_of_ne hr]
      exact h.lookup?_some m i
  lookup?_none m := by
    rw [apply_lookup?]
    by_cases hr : op.registers name = some m
    · rw [if_pos hr]
      simp only [reduceCtorEq, false_iff]
      exact Set.nonempty_iff_ne_empty.mp ⟨_, mem_registrations_append.mpr (.inr ⟨rfl, hr⟩)⟩
    · rw [if_neg hr, registrations_append_of_ne hr]
      exact h.lookup?_none m

theorem run_models (ops : List (Op α)) :
    Models name ops (run name {} ops).1 ∧
      (run name {} ops).2 = (List.range ops.length).map Handle.new := by
  induction ops using List.reverseRecOn with
  | nil => exact ⟨models_nil, rfl⟩
  | append_singleton ops op ih =>
    obtain ⟨hm, hids⟩ := ih
    rw [run_append_singleton]
    refine ⟨hm.apply op, ?_⟩
    rw [hids, apply_handle, hm.size, List.length_append, List.length_singleton,
      List.range_succ, List.map_append, List.map_singleton]

theorem Models.resolve (h : Models name ops t) (mk : Nat → ι) (n : String) :
    (∀ i, IsGreatest (registrations name ops n) i → t.resolve mk n = .resolved (mk i)) ∧
      (registrations name ops n = ∅ → t.resolve mk n = .unresolved n) := by
  refine ⟨fun i hi => ?_, fun hn => ?_⟩
  · simp only [Table.resolve, (h.lookup?_some n i).mpr hi]
  · simp only [Table.resolve, (h.lookup?_none n).mpr hn]

/-! ## Handles -/

theorem Handle.index_toNat {i : Nat} (hi : i < 2 ^ 32) : (Handle.new i).index.toNat = i :=
  UInt32.toNat_ofNat_of_lt hi

theorem Handle.new_inj {i j : Nat} (hi : i < 2 ^ 32) (hj : j < 2 ^ 32)
    (h : Handle.new i = Handle.new j) : i = j := by
  have hidx := congrArg (fun hd : Handle => hd.index.toNat) h
  simpa only [Handle.index_toNat hi, Handle.index_toNat hj] using hidx

theorem Models.getHandle (h : Models name ops t) (hd : Handle) :
    t.getHandle hd = (ops.map decl)[hd.index.toNat]? :=
  h.get? _

theorem Models.iterHandles (h : Models name ops t) :
    t.iterHandles = (ops.map decl).mapIdx fun i d => (Handle.new i, d) := by
  rw [Table.iterHandles, h.entries]

theorem Models.lookupHandle_some (h : Models name ops t) (n : String) (hd : Handle) :
    t.lookupHandle n = some hd ↔ ∃ i, IsGreatest (registrations name ops n) i ∧ hd = Handle.new i := by
  rw [Table.lookupHandle, Option.map_eq_some_iff]
  simp only [h.lookup?_some, eq_comm]

theorem Models.lookupHandle_none (h : Models name ops t) (n : String) :
    t.lookupHandle n = none ↔ registrations name ops n = ∅ := by
  rw [Table.lookupHandle, Option.map_eq_none_iff, h.lookup?_none]

theorem Models.resolveHandle (h : Models name ops t) (n : String) :
    (∀ i, IsGreatest (registrations name ops n) i →
      t.resolveHandle n = .resolved (Handle.new i)) ∧
    (registrations name ops n = ∅ → t.resolveHandle n = .unresolved n) := by
  refine ⟨fun i hi => ?_, fun hn => ?_⟩
  · simp only [Table.resolveHandle, ((h.lookupHandle_some n _).mpr ⟨i, hi, rfl⟩)]
  · simp only [Table.resolveHandle, (h.lookupHandle_none n).mpr hn]

theorem nodup_handles {k : Nat} (hk : k ≤ 2 ^ 32) : ((List.range k).map Handle.new).Nodup := by
  refine List.Nodup.map_on (fun i hi j hj hij => ?_) List.nodup_range
  exact Handle.new_inj (by simp at hi; omega) (by simp at hj; omega) hij

end Op

end Table

namespace Tables

@[simp] theorem resolveType_eq (ts : Tables) (n : String) :
    ts.resolveType n = ts.types.resolve TypeId.mk n := rfl

@[simp] theorem resolveVar_eq (ts : Tables) (n : String) :
    ts.resolveVar n = ts.vars.resolve VarId.mk n := rfl

@[simp] theorem resolveFun_eq (ts : Tables) (n : String) :
    ts.resolveFun n = ts.funs.resolve FunId.mk n := rfl

end Tables

open Table Table.Op in
/-- A table built from the empty one by at most `2 ^ 32` operations `ops` is that list of
operations: the `i`-th operation returned the handle of position `i`, and these handles are
distinct; the table holds one entry per operation, in order, each found by its handle, and a
handle past them finds nothing; a name is answered by the last operation that registered it
and by none when no operation did, so a push changes no answer; and a name resolves to that
handle, or stays unresolved. -/
theorem table_refines_operation_list {α : Type} (name : α → String) (ops : List (Op α))
    (hops : ops.length ≤ 2 ^ 32) :
    (run name {} ops).2 = (List.range ops.length).map Handle.new ∧
    (run name {} ops).2.Nodup ∧
    (run name {} ops).1.size = ops.length ∧
    (∀ i < ops.length, (run name {} ops).1.getHandle (Handle.new i) = (ops.map decl)[i]?) ∧
    (∀ hd : Handle, ops.length ≤ hd.index.toNat → (run name {} ops).1.getHandle hd = none) ∧
    (run name {} ops).1.iterHandles = (ops.map decl).mapIdx (fun i d => (Handle.new i, d)) ∧
    (∀ n hd, (run name {} ops).1.lookupHandle n = some hd ↔
      ∃ i, IsGreatest (registrations name ops n) i ∧ hd = Handle.new i) ∧
    (∀ n, (run name {} ops).1.lookupHandle n = none ↔ registrations name ops n = ∅) ∧
    ∀ n, (∀ i, IsGreatest (registrations name ops n) i →
        (run name {} ops).1.resolveHandle n = .resolved (Handle.new i)) ∧
      (registrations name ops n = ∅ → (run name {} ops).1.resolveHandle n = .unresolved n) := by
  obtain ⟨hm, hids⟩ := @run_models _ name ops
  refine ⟨hids, hids ▸ nodup_handles hops, hm.size, fun i hi => ?_, fun hd hd₁ => ?_,
    hm.iterHandles, hm.lookupHandle_some, hm.lookupHandle_none, hm.resolveHandle⟩
  · rw [hm.getHandle, Handle.index_toNat (by omega)]
  · rw [hm.getHandle, List.getElem?_eq_none (by simpa using hd₁)]

open Table Table.Op in
theorem three_operations_refine_their_list :
    let ops : List (Op (String × Nat)) := [.insert ("a", 0), .push ("b", 1), .insert ("a", 2)]
    ops.length ≤ 2 ^ 32 ∧
    (run Prod.fst {} ops).2 = (List.range ops.length).map Handle.new ∧
    (run Prod.fst {} ops).2.Nodup ∧
    (run Prod.fst {} ops).1.size = ops.length ∧
    (∀ i < ops.length, (run Prod.fst {} ops).1.getHandle (Handle.new i) = (ops.map decl)[i]?) ∧
    (∀ hd : Handle, ops.length ≤ hd.index.toNat → (run Prod.fst {} ops).1.getHandle hd = none) ∧
    (run Prod.fst {} ops).1.iterHandles = (ops.map decl).mapIdx (fun i d => (Handle.new i, d)) ∧
    (∀ n hd, (run Prod.fst {} ops).1.lookupHandle n = some hd ↔
      ∃ i, IsGreatest (registrations Prod.fst ops n) i ∧ hd = Handle.new i) ∧
    (∀ n, (run Prod.fst {} ops).1.lookupHandle n = none ↔ registrations Prod.fst ops n = ∅) ∧
    ∀ n, (∀ i, IsGreatest (registrations Prod.fst ops n) i →
        (run Prod.fst {} ops).1.resolveHandle n = .resolved (Handle.new i)) ∧
      (registrations Prod.fst ops n = ∅ → (run Prod.fst {} ops).1.resolveHandle n = .unresolved n) := by
  intro ops
  exact ⟨by decide, table_refines_operation_list Prod.fst ops (by decide)⟩

open Table Table.Op in
/-- After `2 ^ 32` pushes the handles come round again: operation `2 ^ 32` returns the handle
of operation `0`, and that handle finds operation `0`'s declaration. -/
theorem handles_repeat_past_two_pow_32_operations :
    let ops : List (Op Nat) := (List.range (2 ^ 32 + 1)).map Op.push
    (run (fun _ => "") {} ops).2[2 ^ 32]? = some (Handle.new 0) ∧
      (run (fun _ => "") {} ops).1.getHandle (Handle.new (2 ^ 32)) = some 0 := by
  intro ops
  obtain ⟨hm, hids⟩ := @run_models _ (fun _ => "") ops
  have hlen : ops.length = 2 ^ 32 + 1 := by simp only [ops, List.length_map, List.length_range]
  have hwrap : Handle.new (2 ^ 32) = Handle.new 0 := by decide
  refine ⟨?_, ?_⟩
  · rw [hids, hlen, List.getElem?_map, List.getElem?_range (by omega), Option.map_some, hwrap]
  · rw [hwrap, hm.getHandle]
    simp only [ops, List.map_map, List.getElem?_map]
    rw [show (Handle.new 0).index.toNat = 0 from rfl, List.getElem?_range (by omega)]
    rfl

end Jass
