import Mathlib
import Jass.Proofs.Lex.Positions
/-!
# Tokens stand in source order

Positions compare by line, then by column. The lexer places each token at the position after the
text before it, and those texts grow from one token to the next, so the tokens' positions
strictly increase, up to the `eof` that closes them (`lex_placed`).

A parse state reads the token under its cursor, or the last one when the cursor stands past the
end (`posAt`). The position it reads grows with the cursor, and strictly once the cursor has
passed a token other than `eof`.
-/

namespace Jass

namespace Pos

def key (p : Pos) : Lex (Nat × Nat) := toLex (p.line, p.column)

theorem key_injective : Function.Injective key := by
  rintro ⟨l, c⟩ ⟨l', c'⟩ h
  obtain ⟨rfl, rfl⟩ := Prod.mk.inj (toLex.injective h)
  rfl

instance : LinearOrder Pos := LinearOrder.lift' key key_injective

theorem lt_iff {p q : Pos} : p < q ↔ p.line < q.line ∨ p.line = q.line ∧ p.column < q.column :=
  Prod.Lex.toLex_lt_toLex

end Pos

namespace Lexer

theorem posAfter_lt_append (p : List Char) {q : List Char} (hq : q ≠ []) :
    posAfter p < posAfter (p ++ q) := by
  rw [Pos.lt_iff]
  by_cases hn : '\n' ∈ q
  · left
    have := List.count_pos_iff.2 hn
    simp only [posAfter, List.count_append]
    omega
  · right
    have hall : ∀ c ∈ q.reverse, (c != '\n') = true := by
      intro c hc
      rw [List.mem_reverse] at hc
      have hc' : c ≠ '\n' := fun h => hn (h ▸ hc)
      simpa using hc'
    have hlen := List.length_pos_of_ne_nil hq
    refine ⟨by simp [posAfter, List.count_eq_zero.2 hn], ?_⟩
    simp only [posAfter, List.reverse_append, List.takeWhile_append_of_pos hall,
      List.length_append, List.length_reverse]
    omega

theorem posAfter_lt_of_prefix {a b src : List Char} (ha : a <+: src) (hb : b <+: src)
    (hlt : (String.ofList a).utf8ByteSize < (String.ofList b).utf8ByteSize) :
    posAfter a < posAfter b := by
  rcases List.prefix_or_prefix_of_prefix ha hb with ⟨q, rfl⟩ | ⟨q, rfl⟩
  · refine posAfter_lt_append a fun hq => ?_
    subst hq
    simp at hlt
  · rw [Spans.byteSize_append] at hlt
    omega

theorem Spans.positions_increase {lim : Limits} {done cs : List Char}
    {lxs : List (Lexeme × List Char)} (h : Spans lim done cs lxs) :
    (lxs.map (·.1.pos)).Pairwise (· < ·) := by
  have hbytes := h.offsets_increase
  rw [List.pairwise_map] at hbytes ⊢
  refine hbytes.imp_of_mem fun {x y} hx hy hxy => ?_
  rw [h.positions x hx, h.positions y hy]
  exact posAfter_lt_of_prefix (h.starts_between x hx).2 (h.starts_between y hy).2 hxy

end Lexer

/-- Tokens as the lexer lays them out: their positions strictly increase, and the last token is
the `eof`. -/
structure Placed (toks : Array Lexeme) : Prop where
  increasing : (toks.toList.map (·.pos)).Pairwise (· < ·)
  last : toks.back?.map (·.token) = some .eof

theorem lex_placed {src : String} {lim : Limits} {toks : Array Lexeme}
    (h : lex src lim = .ok toks) : Placed toks := by
  have hlast := lex_back_eof h
  unfold lex at h
  split at h
  · cases h
  · obtain ⟨lxs, hspans, hout⟩ :=
      Lexer.lexemes_spans _ 0 [] src.toList #[] toks (by simp [String.length_toList]) h
    rw [Array.toList_empty, List.nil_append] at hout
    refine ⟨?_, hlast⟩
    simpa [hout, List.map_map, Function.comp_def] using hspans.positions_increase

/-- The position a parse state reads at cursor `i`: the token there, or the last one past the
end. -/
def posAt (toks : Array Lexeme) (i : Nat) : Pos :=
  (toks.getD (min i (toks.size - 1)) ⟨.eof, ⟨0, 0⟩⟩).pos

theorem ParseState.current_pos (s : ParseState) : s.current.pos = posAt s.tokens s.cursor := rfl

namespace Placed

variable {toks : Array Lexeme}

theorem size_pos (h : Placed toks) : 0 < toks.size := by
  rcases Nat.eq_zero_or_pos toks.size with hz | hpos
  · have hb := h.last
    simp [Array.back?_eq_getElem?, hz] at hb
  · exact hpos

theorem getElem_lt (h : Placed toks) {i j : Nat} (hi : i < toks.size) (hj : j < toks.size)
    (hij : i < j) : toks[i].pos < toks[j].pos := by
  have hp := h.increasing
  rw [List.pairwise_iff_getElem] at hp
  have := hp i j (by simpa using hi) (by simpa using hj) hij
  simpa only [List.getElem_map, Array.getElem_toList] using this

theorem getElem_last (h : Placed toks) (hlt : toks.size - 1 < toks.size) :
    toks[toks.size - 1].token = .eof := by
  have hb := h.last
  rw [Array.back?_eq_getElem?, Array.getElem?_eq_getElem hlt] at hb
  simpa using hb

theorem posAt_eq (toks : Array Lexeme) {i : Nat} (hlt : min i (toks.size - 1) < toks.size) :
    posAt toks i = toks[min i (toks.size - 1)].pos := by
  simp [posAt, Array.getD_eq_getD_getElem?, Array.getElem?_eq_getElem hlt]

theorem posAt_mono (h : Placed toks) {i j : Nat} (hij : i ≤ j) : posAt toks i ≤ posAt toks j := by
  have hpos := h.size_pos
  have hi : min i (toks.size - 1) < toks.size := by omega
  have hj : min j (toks.size - 1) < toks.size := by omega
  rw [posAt_eq toks hi, posAt_eq toks hj]
  rcases Nat.lt_or_eq_of_le (min_le_min_right (toks.size - 1) hij) with hlt | heq
  · exact (h.getElem_lt hi hj hlt).le
  · simp only [heq, le_refl]

theorem lt_last (h : Placed toks) {i : Nat}
    (hne : (toks.getD (min i (toks.size - 1)) ⟨.eof, ⟨0, 0⟩⟩).token ≠ .eof) :
    i < toks.size - 1 := by
  have hpos := h.size_pos
  have hlt : toks.size - 1 < toks.size := by omega
  refine Nat.lt_of_not_le fun hge => hne ?_
  have hmin : min i (toks.size - 1) = toks.size - 1 := by omega
  simpa [hmin, Array.getD_eq_getD_getElem?, Array.getElem?_eq_getElem hlt] using h.getElem_last hlt

theorem posAt_lt (h : Placed toks) {i j : Nat}
    (hne : (toks.getD (min i (toks.size - 1)) ⟨.eof, ⟨0, 0⟩⟩).token ≠ .eof) (hij : i < j) :
    posAt toks i < posAt toks j := by
  have hlast := h.lt_last hne
  have hi : min i (toks.size - 1) < toks.size := by omega
  have hj : min j (toks.size - 1) < toks.size := by omega
  rw [posAt_eq toks hi, posAt_eq toks hj]
  exact h.getElem_lt hi hj (by omega)

end Placed

end Jass
