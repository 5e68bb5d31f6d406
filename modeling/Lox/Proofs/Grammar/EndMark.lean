import Lox.Proofs.Copy.Onward
import Lox.Proofs.Grammar.Scripts

/-!
Reading up to the first end mark. Tokens are known by their place in the whole list, where an end mark
is supplied if none stands last. Whatever the list is, reading stays at places up to the first mark,
and what is behind that has no part in the program.
-/

namespace Lox.Grammar

/-- The tokens with an end mark behind them, unless one stands there. -/
def supplied (tokens : List Token) : List Token :=
  if tokens.getLast?.map Token.kind = some .eof then tokens
  else tokens ++ [⟨.eof, "", (tokens.getLast?.map Token.line).getD 1⟩]

/-- The place of the first end mark. -/
def firstEnd (tokens : List Token) : Nat := (supplied tokens).findIdx fun t => t.kind = .eof

theorem kind_ne_of_mem_upToEnd {tokens : List Token} {t : Token} (h : t ∈ upToEnd tokens) :
    t.kind ≠ .eof := by
  simpa using List.all_eq_true.mp List.all_takeWhile t h

theorem closingLine_of_find? {tokens : List Token} {mark : Token} {back : List Token}
    (h : tokens = upToEnd tokens ++ mark :: back) (hk : mark.kind = .eof) :
    closingLine tokens = mark.line := by
  have hnone : (upToEnd tokens).find? (fun t => t.kind = .eof) = none :=
    List.find?_eq_none.mpr fun t ht => by simpa using kind_ne_of_mem_upToEnd ht
  have hfind : tokens.find? (fun t => t.kind = .eof) = some mark := by
    rw [h, List.find?_append, hnone, Option.none_or, List.find?_cons_of_pos (by simp [hk])]
  rw [closingLine, hfind]

/-- The list falls into what is read, the first end mark, and what is not looked at. -/
theorem supplied_eq (tokens : List Token) : ∃ mark back,
    supplied tokens = upToEnd tokens ++ mark :: back ∧ mark.kind = .eof ∧
      mark.line = closingLine tokens := by
  have hsplit : upToEnd tokens ++ tokens.dropWhile (fun t => t.kind ≠ .eof) = tokens :=
    List.takeWhile_append_dropWhile
  cases hback : tokens.dropWhile fun t => t.kind ≠ .eof with
  | cons mark back =>
      have hk : mark.kind = .eof := by
        have hhead := List.head?_dropWhile_not (fun t : Token => decide (t.kind ≠ .eof)) tokens
        rw [hback] at hhead
        simpa using hhead
      rw [hback] at hsplit
      have hline := closingLine_of_find? hsplit.symm hk
      by_cases hlast : tokens.getLast?.map Token.kind = some .eof
      · rw [supplied, if_pos hlast]
        exact ⟨mark, back, hsplit.symm, hk, hline.symm⟩
      · rw [supplied, if_neg hlast]
        exact ⟨mark, back ++ _, by rw [← List.cons_append, ← List.append_assoc, hsplit], hk,
          hline.symm⟩
  | nil =>
      rw [hback, List.append_nil] at hsplit
      have hnone : ∀ t ∈ tokens, t.kind ≠ .eof := fun t ht =>
        kind_ne_of_mem_upToEnd (hsplit.symm ▸ ht)
      have hlast : tokens.getLast?.map Token.kind ≠ some .eof := fun h => by
        obtain ⟨t, ht, hk⟩ := Option.map_eq_some_iff.mp h
        exact hnone t (List.mem_of_getLast? ht) hk
      have hfind : tokens.find? (fun t => t.kind = .eof) = none :=
        List.find?_eq_none.mpr fun t ht => by simpa using hnone t ht
      rw [supplied, if_neg hlast, hsplit]
      exact ⟨_, [], rfl, rfl, by rw [closingLine, hfind]⟩

theorem firstEnd_eq (tokens : List Token) : firstEnd tokens = (upToEnd tokens).length := by
  obtain ⟨mark, back, heq, hk, -⟩ := supplied_eq tokens
  have hno : (upToEnd tokens).findIdx (fun t => t.kind = .eof) = (upToEnd tokens).length :=
    List.findIdx_eq_length.mpr fun t ht => by simpa using kind_ne_of_mem_upToEnd ht
  rw [firstEnd, heq, List.findIdx_append, hno, if_neg (Nat.lt_irrefl _), List.findIdx_cons, hk]
  simp

/-! ### States -/

/-- A state that looks at one of the tokens up to the first end mark. What is ahead, where the end is
and which line comes next is what the list says at that place. -/
structure State.Stands (tokens : List Token) (s : State) : Prop where
  position_le : s.position ≤ firstEnd tokens
  peek : ∃ t, (supplied tokens)[s.position]? = some t ∧
    s.rest.head? = (if t.kind = .eof then none else some t) ∧ s.line = t.line
  previous : ∃ t, (supplied tokens)[s.position - 1]? = some t
  depth_le : s.depth ≤ maxDepth

theorem State.Onward.stands {tokens : List Token} {firstId : Nat} {s : State}
    (h : (State.start tokens firstId).Onward s) (hd : s.depth ≤ maxDepth) : s.Stands tokens := by
  obtain ⟨n, hn, hrest, hposition, hline⟩ := h
  obtain ⟨mark, back, heq, hk, hmark⟩ := supplied_eq tokens
  have hn : n ≤ (upToEnd tokens).length := hn
  have hrest : s.rest = (upToEnd tokens).drop n := hrest
  have hposition : s.position = n := hposition.trans (Nat.zero_add n)
  have hline : s.endLine = closingLine tokens := hline
  refine ⟨by rw [hposition, firstEnd_eq]; exact hn, ?_, ?_, hd⟩
  · rw [hposition, heq]
    rcases Nat.lt_or_eq_of_le hn with hlt | rfl
    · refine ⟨(upToEnd tokens)[n], ?_, ?_⟩
      · rw [List.getElem?_append_left hlt, List.getElem?_eq_getElem hlt]
      rw [State.line, hrest, List.drop_eq_getElem_cons hlt,
        if_neg (kind_ne_of_mem_upToEnd (List.getElem_mem hlt))]
      exact ⟨rfl, rfl⟩
    · refine ⟨mark, by simp, ?_⟩
      rw [State.line, hrest, List.drop_length, if_pos hk]
      exact ⟨rfl, hline.trans hmark.symm⟩
  · have hlt : s.position - 1 < (supplied tokens).length := by
      rw [heq, List.length_append, List.length_cons]
      omega
    exact ⟨_, List.getElem?_eq_getElem hlt⟩

example : (Program.ofTokens? [] 0).map (fun p => (p.statements.length, p.faults)) = some (0, []) := by
  decide +kernel

end Lox.Grammar
