import Mathlib
import Jass.Destructors
/-!
# Destructor tables against the pairs inserted into them

A destructor table is read through the log of the pairs inserted into it, in order
(`Destructors.Follows`): the functions of a type are those inserted for it, each once, in order
of first insertion; a pair is a destructor pair exactly when it was inserted; the size counts
the distinct inserted pairs; and the walk over the table lists each distinct pair once, by type
name in the byte order of the names' UTF-8 text and, within a type, in the order of its
functions. Both starts the program uses, the empty table and the well-known destructors,
follow their logs under every sequence of inserts (`destructor_tables_follow_their_inserts`).

The table keeps its entries sorted by type name with `String`'s order, which compares code
points. UTF-8 encodes a smaller code point to a smaller byte string that is no prefix of the
other, so this order is the byte order of the encodings (`lt_iff_utf8Bytes_lt`).
-/

namespace Jass

/-! ## Code-point order is byte order -/

def utf8Bytes (s : String) : List UInt8 := s.toUTF8.data.toList

theorem utf8Bytes_eq (s : String) : utf8Bytes s = s.toList.flatMap String.utf8EncodeChar := by
  conv => lhs; rw [← @String.ofList_toList s]
  rw [utf8Bytes, String.toUTF8_eq_toByteArray, String.toByteArray_ofList, List.utf8Encode,
    List.toList_data_toByteArray]

theorem char_val_toNat_lt (c : Char) : c.val.toNat < 0x110000 := by
  have := c.valid
  simp only [UInt32.isValidChar, Nat.isValidChar, UInt32.toNat] at this
  simp only [UInt32.toNat]
  omega

theorem ofNat_cons_lt {a b : Nat} {X Y : List UInt8} (ha : a < 256) (hb : b < 256)
    (hlt : a ≠ b → a < b) (hrest : a = b → X < Y) : UInt8.ofNat a :: X < UInt8.ofNat b :: Y := by
  rw [List.cons_lt_cons_iff]
  by_cases hab : a = b
  · exact .inr ⟨hab ▸ rfl, hrest hab⟩
  · refine .inl ?_
    rw [UInt8.lt_iff_toNat_lt, UInt8.toNat_ofNat', UInt8.toNat_ofNat']
    have := hlt hab
    omega

theorem utf8EncodeChar_append_lt {a b : Char} (h : a < b) (X Y : List UInt8) :
    String.utf8EncodeChar a ++ X < String.utf8EncodeChar b ++ Y := by
  have hv : a.val.toNat < b.val.toNat := by rw [Char.lt_def, UInt32.lt_iff_toNat_lt] at h; exact h
  have hw := char_val_toNat_lt b
  unfold String.utf8EncodeChar
  generalize a.val.toNat = v at hv ⊢
  generalize b.val.toNat = w at hv hw ⊢
  dsimp only
  -- the lead byte tells the lengths apart; at one length, the first byte whose digit differs
  -- decides, and the digits are those of the code points in base 64
  split_ifs <;> simp only [List.cons_append, List.nil_append] <;>
    repeat' (refine ofNat_cons_lt (by omega) (by omega) (fun _ => by omega) fun _ => ?_)
  all_goals omega

theorem flatMap_utf8EncodeChar_lt {l₁ l₂ : List Char} (h : l₁ < l₂) :
    l₁.flatMap String.utf8EncodeChar < l₂.flatMap String.utf8EncodeChar := by
  induction h with
  | @nil c l =>
    rw [List.flatMap_nil, List.flatMap_cons]
    rcases he : String.utf8EncodeChar c with _ | ⟨x, xs⟩
    · simp at he
    · exact List.nil_lt_cons _ _
  | rel h => rw [List.flatMap_cons, List.flatMap_cons]; exact utf8EncodeChar_append_lt h _ _
  | cons _ ih => rw [List.flatMap_cons, List.flatMap_cons]; exact List.append_left_lt ih

/-- Strings compare in code-point order, which is the byte order of their UTF-8 encodings. -/
theorem lt_iff_utf8Bytes_lt {s t : String} : s < t ↔ utf8Bytes s < utf8Bytes t := by
  rw [utf8Bytes_eq, utf8Bytes_eq]
  refine ⟨fun h => flatMap_utf8EncodeChar_lt (String.lt_iff_toList_lt.mp h), fun h => ?_⟩
  by_contra hn
  rcases lt_or_eq_of_le (String.not_lt.mp hn) with hts | rfl
  · exact List.lt_asymm h (flatMap_utf8EncodeChar_lt (String.lt_iff_toList_lt.mp hts))
  · exact List.lt_irrefl _ h

theorem le_iff_utf8Bytes_le {s t : String} : s ≤ t ↔ utf8Bytes s ≤ utf8Bytes t := by
  rw [← String.not_lt, lt_iff_utf8Bytes_lt, List.not_lt]

/-! ## The log of inserts -/

namespace Destructors

/-- The functions a log of inserted pairs gives a type: each once, in order of first insertion. -/
def fnsIn (log : List (String × String)) (type : String) : List String :=
  ((log.filter (·.1 == type)).map (·.2)).eraseDups

def lookup (es : List (String × List String)) (type : String) : List String :=
  ((es.find? (·.1 == type)).map (·.2)).getD []

/-- What a table shows of the log of pairs inserted into it: each operation of the table,
answered from the log. `isEmpty` holds exactly when nothing was inserted, which is when the
size is 0. -/
structure Follows (d : Destructors) (log : List (String × String)) : Prop where
  forType : ∀ t, d.forType t = ((log.filter (·.1 == t)).map (·.2)).eraseDups
  isDestructor : ∀ t f, d.isDestructor t f = true ↔ (t, f) ∈ log
  size : d.size = log.toFinset.card
  isEmpty : d.isEmpty = true ↔ log = []
  pairs_mem : ∀ p, p ∈ d.pairs ↔ p ∈ log
  pairs_nodup : d.pairs.Nodup
  pairs_sorted : d.pairs.Pairwise fun a b => utf8Bytes a.1 ≤ utf8Bytes b.1
  pairs_within : ∀ t, (d.pairs.filter (·.1 == t)).map (·.2) = d.forType t

def Sorted (es : List (String × List String)) : Prop := es.Pairwise fun a b => a.1 < b.1

variable {es : List (String × List String)} {log : List (String × String)}
  {type fn t : String}

/-! ### The log side -/

theorem nodup_eraseDups (l : List String) : l.eraseDups.Nodup := by
  induction hn : l.length using Nat.strong_induction_on generalizing l with
  | _ n ih =>
    cases l with
    | nil => exact List.nodup_nil
    | cons a as =>
      -- the first element stays, and its later copies are filtered out before the rest
      have hlt : (as.filter fun b => !b == a).length < n :=
        hn ▸ Nat.lt_succ_of_le (List.length_filter_le _ _)
      rw [List.eraseDups_cons, List.nodup_cons]
      exact ⟨by simp, ih _ hlt _ rfl⟩

theorem eraseDups_append_singleton (L : List String) (x : String) :
    (L ++ [x]).eraseDups = if x ∈ L then L.eraseDups else L.eraseDups ++ [x] := by
  rw [List.eraseDups_append]
  by_cases hx : x ∈ L <;> simp [hx, List.removeAll, List.eraseDups_cons]

theorem mem_fnsIn : fn ∈ fnsIn log type ↔ (type, fn) ∈ log := by
  simp only [fnsIn, List.mem_eraseDups, List.mem_map, List.mem_filter, beq_iff_eq]
  constructor
  · rintro ⟨⟨t', f'⟩, ⟨hmem, rfl⟩, rfl⟩
    exact hmem
  · intro h
    exact ⟨_, ⟨h, rfl⟩, rfl⟩

theorem fnsIn_append (log : List (String × String)) (type fn t : String) :
    fnsIn (log ++ [(type, fn)]) t =
      if t = type then (if fn ∈ fnsIn log t then fnsIn log t else fnsIn log t ++ [fn])
      else fnsIn log t := by
  by_cases ht : t = type
  · subst ht
    have hfilter : ((log ++ [(t, fn)]).filter (·.1 == t)).map (·.2) =
        (log.filter (·.1 == t)).map (·.2) ++ [fn] := by simp
    simp only [fnsIn, hfilter, eraseDups_append_singleton, List.mem_eraseDups, if_true]
  · have hne : (type == t) = false := beq_false_of_ne (Ne.symm ht)
    simp [fnsIn, List.filter_append, hne, ht]

/-! ### The entry side -/

theorem lookup_cons (t' : String) (fs : List String) (es : List (String × List String))
    (t : String) : lookup ((t', fs) :: es) t = if t' = t then fs else lookup es t := by
  by_cases h : t' = t <;> simp [lookup, h]

theorem lookup_of_lt (h : ∀ e ∈ es, t < e.1) : lookup es t = [] := by
  induction es with
  | nil => rfl
  | cons e es ih =>
    obtain ⟨t', fs⟩ := e
    rw [lookup_cons, if_neg (ne_of_gt (h _ (.head _))), ih fun e' he' => h e' (.tail _ he')]

theorem lookup_of_mem (hs : Sorted es) {e : String × List String} (he : e ∈ es) :
    lookup es e.1 = e.2 := by
  induction es with
  | nil => cases he
  | cons e' es ih =>
    obtain ⟨t', fs⟩ := e'
    rw [Sorted, List.pairwise_cons] at hs
    rw [lookup_cons]
    rcases List.mem_cons.mp he with rfl | he
    · rw [if_pos rfl]
    · rw [if_neg (ne_of_lt (hs.1 e he)), ih hs.2 he]

theorem mem_keys_insertInto {e : String × List String} (he : e ∈ insertInto type fn es) :
    e.1 = type ∨ ∃ e' ∈ es, e'.1 = e.1 := by
  induction es with
  | nil =>
    rw [insertInto, List.mem_singleton] at he
    exact .inl (he ▸ rfl)
  | cons e' es ih =>
    obtain ⟨t', fs⟩ := e'
    rw [insertInto] at he
    by_cases h₁ : type == t'
    · rw [if_pos h₁] at he
      rcases List.mem_cons.mp he with rfl | he
      · exact .inr ⟨_, .head _, rfl⟩
      · exact .inr ⟨e, .tail _ he, rfl⟩
    by_cases h₂ : type < t'
    · rw [if_neg h₁, if_pos h₂] at he
      rcases List.mem_cons.mp he with rfl | he
      · exact .inl rfl
      · exact .inr ⟨e, he, rfl⟩
    · rw [if_neg h₁, if_neg h₂] at he
      rcases List.mem_cons.mp he with rfl | he
      · exact .inr ⟨_, .head _, rfl⟩
      · obtain h | ⟨e'', he'', hk⟩ := ih he
        · exact .inl h
        · exact .inr ⟨e'', .tail _ he'', hk⟩

theorem Sorted.insertInto (hs : Sorted es) : Sorted (insertInto type fn es) := by
  induction es with
  | nil => exact List.pairwise_singleton _ _
  | cons e es ih =>
    obtain ⟨t', fs⟩ := e
    rw [Sorted, List.pairwise_cons] at hs
    rw [Destructors.insertInto]
    by_cases h₁ : type == t'
    · rw [if_pos h₁]
      exact List.pairwise_cons.2 ⟨fun e' he' => hs.1 e' he', hs.2⟩
    by_cases h₂ : type < t'
    · rw [if_neg h₁, if_pos h₂]
      refine List.pairwise_cons.2 ⟨fun e' he' => ?_, List.pairwise_cons.2 hs⟩
      rcases List.mem_cons.mp he' with rfl | he'
      · exact h₂
      · exact lt_trans h₂ (hs.1 e' he')
    · -- the new type goes after `t'`, so `t'` stays below every type after it
      rw [if_neg h₁, if_neg h₂]
      have hlt : t' < type :=
        lt_of_le_of_ne (String.not_lt.mp h₂) fun h => h₁ (by simp [h])
      refine List.pairwise_cons.2 ⟨fun e' he' => ?_, ih hs.2⟩
      obtain h | ⟨e'', he'', hk⟩ := mem_keys_insertInto he'
      · exact h ▸ hlt
      · exact hk ▸ hs.1 e'' he''

theorem lookup_insertInto (hs : Sorted es) (t : String) :
    lookup (insertInto type fn es) t =
      if t = type then (if fn ∈ lookup es t then lookup es t else lookup es t ++ [fn])
      else lookup es t := by
  induction es with
  | nil =>
    rw [insertInto, lookup_cons]
    by_cases ht : t = type
    · subst ht
      simp [lookup]
    · simp [lookup, ht, Ne.symm ht]
  | cons e es ih =>
    obtain ⟨t', fs⟩ := e
    rw [Sorted, List.pairwise_cons] at hs
    rw [insertInto]
    by_cases h₁ : type == t'
    · -- the type has an entry: its functions grow
      rw [if_pos h₁]
      have he : t' = type := (beq_iff_eq.mp h₁).symm
      subst he
      by_cases ht : t = t'
      · subst ht
        simp [lookup_cons]
      · simp [lookup_cons, Ne.symm ht, ht]
    by_cases h₂ : type < t'
    · -- the type is new and comes first
      rw [if_neg h₁, if_pos h₂]
      have hnone : lookup ((t', fs) :: es) type = [] := lookup_of_lt fun e' he' => by
        rcases List.mem_cons.mp he' with rfl | he'
        · exact h₂
        · exact lt_trans h₂ (hs.1 e' he')
      by_cases ht : t = type
      · subst ht
        simp [lookup_cons, hnone]
      · simp [lookup_cons, Ne.symm ht, ht]
    · rw [if_neg h₁, if_neg h₂, lookup_cons, lookup_cons, ih hs.2]
      by_cases ht : t = type
      · subst ht
        have hne : t' ≠ t := fun h => h₁ (by simp [h])
        simp [hne]
      · simp [ht]

/-! ### Walking the entries -/

theorem pairs_cons (t' : String) (fs : List String) (es : List (String × List String)) :
    pairs ⟨(t', fs) :: es⟩ = fs.map (t', ·) ++ pairs ⟨es⟩ := rfl

theorem size_eq_length_pairs (d : Destructors) : d.size = d.pairs.length := by
  obtain ⟨es⟩ := d
  induction es with
  | nil => rfl
  | cons e es ih =>
    obtain ⟨t', fs⟩ := e
    rw [pairs_cons, List.length_append, List.length_map, ← ih]
    rfl

theorem mem_pairs {p : String × String} :
    p ∈ pairs ⟨es⟩ ↔ ∃ e ∈ es, e.1 = p.1 ∧ p.2 ∈ e.2 := by
  induction es with
  | nil => simp [pairs]
  | cons e es ih =>
    obtain ⟨t', fs⟩ := e
    obtain ⟨t, f⟩ := p
    rw [pairs_cons, List.mem_append, ih]
    simp only [List.mem_map, Prod.mk.injEq, List.mem_cons, exists_eq_or_imp]
    constructor
    · rintro (⟨f', hf', rfl, rfl⟩ | h)
      · exact .inl ⟨rfl, hf'⟩
      · exact .inr h
    · rintro (⟨rfl, hf⟩ | h)
      · exact .inl ⟨f, hf, rfl, rfl⟩
      · exact .inr h

theorem mem_lookup {f : String} (h : f ∈ lookup es t) : ∃ e ∈ es, e.1 = t ∧ f ∈ e.2 := by
  unfold lookup at h
  cases hfind : es.find? (·.1 == t) with
  | none => simp [hfind] at h
  | some e =>
    rw [hfind, Option.map_some, Option.getD_some] at h
    have hk := List.find?_some hfind
    simp only [beq_iff_eq] at hk
    exact ⟨e, List.mem_of_find?_eq_some hfind, hk, h⟩

theorem mem_pairs_iff_lookup (hs : Sorted es) {p : String × String} :
    p ∈ pairs ⟨es⟩ ↔ p.2 ∈ lookup es p.1 := by
  rw [mem_pairs]
  constructor
  · rintro ⟨e, he, hk, hf⟩
    rw [← hk, lookup_of_mem hs he]
    exact hf
  · exact mem_lookup

theorem pairs_within (hs : Sorted es) (t : String) :
    ((pairs ⟨es⟩).filter (·.1 == t)).map (·.2) = lookup es t := by
  induction es with
  | nil => rfl
  | cons e es ih =>
    obtain ⟨t', fs⟩ := e
    rw [Sorted, List.pairwise_cons] at hs
    rw [pairs_cons, List.filter_append, List.map_append, lookup_cons, ih hs.2]
    by_cases ht : t' = t
    · -- every later type is above `t`, so nothing after this entry has it
      subst ht
      have hrest : lookup es t' = [] := lookup_of_lt fun e he => hs.1 e he
      rw [if_pos rfl, hrest, List.append_nil, List.filter_eq_self.2 (by simp), List.map_map]
      exact List.map_id' fs
    · rw [if_neg ht, List.filter_eq_nil_iff.2 (by simp [ht]), List.map_nil, List.nil_append]

theorem pairs_sorted (hs : Sorted es) :
    (pairs ⟨es⟩).Pairwise fun a b => utf8Bytes a.1 ≤ utf8Bytes b.1 := by
  induction es with
  | nil => exact List.Pairwise.nil
  | cons e es ih =>
    obtain ⟨t', fs⟩ := e
    rw [Sorted, List.pairwise_cons] at hs
    rw [pairs_cons, List.pairwise_append]
    refine ⟨List.pairwise_map.2 (List.pairwise_of_forall fun _ _ => List.le_refl _), ih hs.2, ?_⟩
    intro a ha b hb
    obtain ⟨_, -, rfl⟩ := List.mem_map.mp ha
    obtain ⟨e, he, hk, -⟩ := mem_pairs.mp hb
    exact le_iff_utf8Bytes_le.mp (hk ▸ (hs.1 e he).le)

/-! ### The invariant -/

/-- Entries that hold, sorted by type, the functions the log gives each type. -/
structure Holds (log : List (String × String)) (es : List (String × List String)) : Prop where
  sorted : Sorted es
  lookup_eq : ∀ t, lookup es t = fnsIn log t

theorem holds_nil : Holds [] [] := ⟨List.Pairwise.nil, fun _ => rfl⟩

theorem Holds.insertInto (h : Holds log es) (type fn : String) :
    Holds (log ++ [(type, fn)]) (insertInto type fn es) :=
  ⟨h.sorted.insertInto, fun t => by rw [lookup_insertInto h.sorted, fnsIn_append, h.lookup_eq]⟩

theorem holds_foldl (log : List (String × String)) :
    Holds log (log.foldl (fun (d : Destructors) p => d.insert p.1 p.2) {}).entries := by
  induction log using List.reverseRecOn with
  | nil => exact holds_nil
  | append_singleton log p ih =>
    rw [List.foldl_append, List.foldl_cons, List.foldl_nil]
    exact ih.insertInto p.1 p.2

theorem Holds.nodup_pairs (h : Holds log es) : (pairs ⟨es⟩).Nodup := by
  rw [pairs, List.nodup_flatMap]
  refine ⟨fun e he => ?_, h.sorted.imp fun {a b} hab => ?_⟩
  · obtain ⟨t', fs⟩ := e
    have hfs : fs = fnsIn log t' := by rw [← h.lookup_eq, lookup_of_mem h.sorted he]
    have hnd : fs.Nodup := by rw [hfs]; exact nodup_eraseDups _
    exact hnd.map fun _ _ hxy => (Prod.mk.inj hxy).2
  · -- entries of different types walk over pairs of different types
    obtain ⟨t₁, fs₁⟩ := a
    obtain ⟨t₂, fs₂⟩ := b
    intro p hp₁ hp₂
    obtain ⟨_, -, rfl⟩ := List.mem_map.mp hp₁
    obtain ⟨_, -, hp⟩ := List.mem_map.mp hp₂
    exact ne_of_lt hab (Prod.mk.inj hp).1.symm

theorem Holds.follows {d : Destructors} (h : Holds log d.entries) : d.Follows log := by
  obtain ⟨es⟩ := d
  have hmem : ∀ p, p ∈ pairs ⟨es⟩ ↔ p ∈ log := fun p => by
    rw [mem_pairs_iff_lookup h.sorted, h.lookup_eq, mem_fnsIn]
  have hsize : size ⟨es⟩ = log.toFinset.card := by
    rw [size_eq_length_pairs, ← List.toFinset_card_of_nodup h.nodup_pairs]
    congr 1
    ext p
    simp only [List.mem_toFinset, hmem]
  refine ⟨fun t => h.lookup_eq t, fun t f => ?_, hsize, ?_, hmem, h.nodup_pairs,
    pairs_sorted h.sorted, pairs_within h.sorted⟩
  · rw [isDestructor, List.contains_iff_mem, ← mem_fnsIn, ← h.lookup_eq]
    rfl
  · rw [isEmpty, beq_iff_eq, hsize, Finset.card_eq_zero, List.toFinset_eq_empty_iff]

end Destructors

/-- A destructor table follows the pairs inserted into it, from each start the program uses:
the empty table, and the well-known destructors inserted in order. For every sequence of
inserts, a type's functions are those inserted for it, each once, in order of first insertion;
a pair is a destructor pair exactly when it was inserted; the size is the number of distinct
pairs inserted, and the table is empty exactly when none was; and the walk lists every distinct
pair once, by type name in the byte order of the names' UTF-8 text and, within a type, in order
of first insertion. -/
theorem destructor_tables_follow_their_inserts (ops : List (String × String)) :
    (ops.foldl (fun (d : Destructors) p => d.insert p.1 p.2) {}).Follows ops ∧
      (ops.foldl (fun (d : Destructors) p => d.insert p.1 p.2) Destructors.builtin).Follows
        (Destructors.builtinPairs ++ ops) := by
  have hbuiltin : Destructors.builtin =
      Destructors.builtinPairs.foldl (fun (d : Destructors) p => d.insert p.1 p.2) {} := rfl
  refine ⟨(Destructors.holds_foldl ops).follows, ?_⟩
  rw [hbuiltin, ← List.foldl_append]
  exact (Destructors.holds_foldl _).follows

example : (Destructors.ofPairs [("timer", "ReleaseTimer"), ("timer", "ReleaseTimer"),
    ("timer", "DestroyTimer")]).pairs = [("timer", "ReleaseTimer"), ("timer", "DestroyTimer")] := by
  decide

end Jass
