import LineBasic.Proofs.Cursor
import LineBasic.Proofs.Text

namespace LineBasic

namespace Lexeme
variable {blanks ds : List UInt8}

theorem lineNumber_append_blanks (hb : ∀ b ∈ blanks, Byte.isBlank b = true) (text : List UInt8) :
    lineNumber (blanks ++ text) = lineNumber text := by
  simp only [lineNumber, skipBlanks_append hb]

section
variable (hd : ∀ d ∈ ds, Byte.isDigit d = true)
include hd

theorem skipBlanks_digits (hne : ds ≠ []) (rest : List UInt8) :
    skipBlanks (ds ++ rest) = ds ++ rest := by
  cases ds with
  | nil => exact absurd rfl hne
  | cons d ds =>
    exact List.dropWhile_cons_of_neg (by simp [Byte.isBlank_of_isDigit (hd d List.mem_cons_self)])

/-- Where the digits denote too large a number, those that are read denote one from 6553 on, and at
least one more is left. -/
theorem lineNumberFrom_given_up {n : Nat} (rest : List UInt8) (hn : n < 65530)
    (hlarge : 65530 ≤ Decimal.valueFrom n ds) :
    ∃ front back, ds = front ++ back ∧ back ≠ [] ∧ 6553 ≤ Decimal.valueFrom n front ∧
      Decimal.valueFrom n front < 65530 ∧ lineNumberFrom n (ds ++ rest) =
      (65535, back ++ rest) := by
  -- On the digits, with the number so far as the accumulator. It stays below 65530 as long as
  -- reading goes on.
  induction ds generalizing n with
  | nil => exact absurd hlarge (Nat.not_le.2 hn)
  | cons d ds ih =>
    have hdigit := hd d List.mem_cons_self
    have hread : lineNumberFrom n (d :: ds ++ rest) =
        if 6553 ≤ n then (65535, d :: ds ++ rest) else lineNumberFrom (10 * n + Byte.digitValue d)
          (ds ++ rest) := by
      rw [List.cons_append, lineNumberFrom, if_pos hdigit]
    by_cases hstop : 6553 ≤ n
    · refine ⟨[], d :: ds, rfl, List.cons_ne_nil d ds, hstop, hn, ?_⟩
      rw [hread, if_pos hstop]
    · have hnext : 10 * n + Byte.digitValue d < 65530 := by
        have := Byte.isDigit_iff.1 hdigit
        rw [Byte.digitValue]
        omega
      obtain ⟨front, back, he, hback, hlow, hhigh, hrun⟩ :=
        ih (fun d hm => hd d (List.mem_cons_of_mem _ hm)) hnext hlarge
      refine ⟨d :: front, back, congrArg (d :: ·) he, hback, hlow, hhigh, ?_⟩
      rw [hread, if_neg hstop, hrun]

end

end Lexeme

namespace Cursor

theorem atEndOfLine_iff (c : Cursor) : c.atEndOfLine = true ↔ c.rest = [] := by
  rw [atEndOfLine, decide_eq_true_eq, rest_eq_nil_iff]

/-- At the cursor stand digits after blanks. If they denote a number less than 65530 it is read, and
the cursor passes all of them. Otherwise 65535 is read, and the cursor stops before the digit after
the first that make 6553 or more. -/
def ReadsNumber (c : Cursor) (blanks ds : List UInt8) : Prop :=
  if Decimal.value ds < 65530 then
    c.lineNumber = ((Decimal.value ds).toUInt16, { c with pos :=
      c.pos + (blanks.length + ds.length) })
  else
    ∃ front back, ds = front ++ back ∧ back ≠ [] ∧ 6553 ≤ Decimal.value front ∧
    Decimal.value front < 65530 ∧
      c.lineNumber = (65535, { c with pos := c.pos + (blanks.length + front.length) })

theorem lineNumber_eq {c : Cursor} {passed after : List UInt8} {number : UInt16}
    (hc : c.rest = passed ++ after) (hread : Lexeme.lineNumber c.rest = (number, after)) :
    c.lineNumber = (number, { c with pos := c.pos + passed.length }) := by
  have hlength : c.rest.length - after.length = passed.length := by
    rw [hc, List.length_append, Nat.add_sub_cancel]
  simp only [lineNumber, hread, moveTo, hlength]

theorem readsNumber {c : Cursor} {blanks ds rest : List UInt8}
    (hc : c.rest = blanks ++ (ds ++ rest)) (hb : ∀ b ∈ blanks, Byte.isBlank b = true)
    (hd : ∀ d ∈ ds, Byte.isDigit d = true) (hne : ds ≠ [])
    (hr : rest.head?.any Byte.isDigit = false) : c.ReadsNumber blanks ds := by
  have hskip : Lexeme.lineNumber c.rest = Lexeme.lineNumber (ds ++ rest) := by
    rw [hc, Lexeme.lineNumber_append_blanks hb (ds ++ rest)]
  rw [ReadsNumber, ← List.length_append]
  split
  case isTrue hsmall =>
    apply lineNumber_eq
    · rw [hc, List.append_assoc]
    · rw [hskip, (Lexeme.lineNumber_append hd hr (Or.inl hne)).1 hsmall]
  case isFalse hlarge =>
    obtain ⟨front, back, he, hback, hlow, hhigh, hrun⟩ :=
      Lexeme.lineNumberFrom_given_up hd rest (show 0 < 65530 by decide) (Nat.not_lt.1 hlarge)
    refine ⟨front, back, he, hback, hlow, hhigh, ?_⟩
    rw [← List.length_append]
    apply lineNumber_eq
    · rw [hc, he, List.append_assoc, List.append_assoc]
    · rw [hskip, Lexeme.lineNumber, Lexeme.skipBlanks_digits hd hne rest, hrun]
      rfl

end Cursor
end LineBasic
