import LineBasic.Text.Case
import LineBasic.Text.Decimal
import LineBasic.Text.Lexeme
import Mathlib.Data.List.DropRight

namespace LineBasic

namespace Byte

/-- The bytes of a text are gone through one by one. That all 256 bytes can be enumerated is of no
use here. -/
instance (priority := 2000) decidableForallMem {P : UInt8 → Prop} [DecidablePred P]
    (text : List UInt8) :
    Decidable (∀ b ∈ text, P b) :=
  List.decidableBAll P text

theorem toNat_of_isLower {b : UInt8} (h : isLower b = true) :
    97 ≤ b.toNat ∧ b.toNat ≤ 122 ∧ (toUpper b).toNat = b.toNat - 32 := by
  obtain ⟨hlo, hhi⟩ : byte 'a' ≤ b ∧ b ≤ byte 'z' := by simpa [isLower] using h
  have hlo : 97 ≤ b.toNat := hlo
  have hsub : (b - 32).toNat = b.toNat - 32 := UInt8.toNat_sub_of_le b 32
    (UInt8.le_iff_toNat_le.2 (by
    show 32 ≤ b.toNat
    omega))
  rw [toUpper, if_pos h]
  exact ⟨hlo, hhi, hsub⟩

theorem toUpper_of_not_isLower {b : UInt8} (h : ¬ isLower b = true) : toUpper b = b :=
  if_neg h

theorem toUpper_eq_marker {b : UInt8} (h : toUpper b = marker) : b = marker := by
  by_cases hl : isLower b = true
  · obtain ⟨hlo, -, hsub⟩ := toNat_of_isLower hl
    rw [h] at hsub
    have : marker.toNat = 10 := rfl
    omega
  · rwa [toUpper_of_not_isLower hl] at h

theorem isDigit_iff {b : UInt8} : isDigit b = true ↔ 48 ≤ b.toNat ∧ b.toNat ≤ 57 := by
  rw [isDigit, Bool.and_eq_true, decide_eq_true_eq, decide_eq_true_eq, UInt8.le_iff_toNat_le,
    UInt8.le_iff_toNat_le]
  exact Iff.rfl

theorem isUpper_iff {b : UInt8} : isUpper b = true ↔ 65 ≤ b.toNat ∧ b.toNat ≤ 90 := by
  rw [isUpper, Bool.and_eq_true, decide_eq_true_eq, decide_eq_true_eq, UInt8.le_iff_toNat_le,
    UInt8.le_iff_toNat_le]
  exact Iff.rfl

theorem ne_of_isDigit {b c : UInt8} (h : isDigit b = true) (hc : isDigit c = false) : b ≠ c := by
  rintro rfl
  rw [h] at hc
  cases hc

theorem toNat_digit {k : Nat} (h : k < 10) : (UInt8.ofNat (48 + k)).toNat = 48 + k := by
  rw [UInt8.toNat_ofNat']
  omega

theorem isBlank_of_isDigit {b : UInt8} (h : isDigit b = true) : isBlank b = false := by
  simp only [isBlank, Bool.or_eq_false_iff, decide_eq_false_iff_not]
  exact ⟨ne_of_isDigit h rfl, ne_of_isDigit h rfl⟩

theorem isQuote_of_isDigit {b : UInt8} (h : isDigit b = true) : isQuote b = false := by
  simp only [isQuote, Bool.or_eq_false_iff, decide_eq_false_iff_not]
  exact ⟨ne_of_isDigit h rfl, ne_of_isDigit h rfl⟩

theorem toUpper_of_isDigit {b : UInt8} (h : isDigit b = true) : toUpper b = b := by
  obtain ⟨-, hhi⟩ := isDigit_iff.1 h
  refine toUpper_of_not_isLower fun hl => ?_
  obtain ⟨hlo, -⟩ := toNat_of_isLower hl
  omega

theorem isDigit_toUpper (b : UInt8) : isDigit (toUpper b) = isDigit b := by
  by_cases hl : isLower b = true
  · obtain ⟨hlo, hhi, hsub⟩ := toNat_of_isLower hl
    rw [Bool.eq_iff_iff, isDigit_iff, isDigit_iff, hsub]
    omega
  · rw [toUpper_of_not_isLower hl]

theorem isQuote_iff {b : UInt8} : isQuote b = true ↔ b.toNat = 34 ∨ b.toNat = 39 := by
  simp only [isQuote, Bool.or_eq_true, decide_eq_true_eq, ← UInt8.toNat_inj]
  exact Iff.rfl

theorem isQuote_toUpper (b : UInt8) : isQuote (toUpper b) = isQuote b := by
  by_cases hl : isLower b = true
  · obtain ⟨hlo, hhi, hsub⟩ := toNat_of_isLower hl
    rw [Bool.eq_iff_iff, isQuote_iff, isQuote_iff, hsub]
    omega
  · rw [toUpper_of_not_isLower hl]

theorem toUpper_toUpper (b : UInt8) : toUpper (toUpper b) = toUpper b := by
  by_cases hl : isLower b = true
  · obtain ⟨hlo, hhi, hsub⟩ := toNat_of_isLower hl
    refine toUpper_of_not_isLower fun hu => ?_
    obtain ⟨hlo', -⟩ := toNat_of_isLower hu
    omega
  · rw [toUpper_of_not_isLower hl, toUpper_of_not_isLower hl]

theorem toUpper_lt {b : UInt8} (h : b < 128) : toUpper b < 128 := by
  by_cases hl : isLower b = true
  · obtain ⟨-, hhi, hsub⟩ := toNat_of_isLower hl
    rw [UInt8.lt_iff_toNat_lt, hsub]
    show b.toNat - 32 < 128
    omega
  · rwa [toUpper_of_not_isLower hl]

theorem toUpper_eq_carriageReturn {b : UInt8} (h : toUpper b = carriageReturn) :
    b = carriageReturn := by
  by_cases hl : isLower b = true
  · obtain ⟨hlo, -, hsub⟩ := toNat_of_isLower hl
    rw [h] at hsub
    have : carriageReturn.toNat = 13 := rfl
    omega
  · rwa [toUpper_of_not_isLower hl] at h

theorem isQuote_of_isBlank {b : UInt8} (h : isBlank b = true) : isQuote b = false := by
  simp only [isBlank, Bool.or_eq_true, decide_eq_true_eq] at h
  obtain rfl | rfl := h
  · rfl
  · rfl

theorem toUpper_of_isBlank {b : UInt8} (h : isBlank b = true) : toUpper b = b := by
  simp only [isBlank, Bool.or_eq_true, decide_eq_true_eq] at h
  obtain rfl | rfl := h
  · rfl
  · rfl

end Byte

namespace Case

theorem length_foldFrom (quote : Option UInt8) (line : List UInt8) :
    (foldFrom quote line).length = line.length := by
  induction line generalizing quote with
  | nil => rfl
  | cons b rest ih =>
    cases quote with
    | some q => simp only [foldFrom, List.length_cons, ih]
    | none =>
      rw [foldFrom]
      by_cases hq : Byte.isQuote b = true
      · rw [if_pos hq, List.length_cons, List.length_cons, ih]
      · rw [if_neg hq, List.length_cons, List.length_cons, ih]

theorem length_fold (line : List UInt8) : (fold line).length = line.length :=
  length_foldFrom none line

/-- What holds of a byte and of its upper case holds of a folded line if it holds of the line. -/
theorem forall_foldFrom {p : UInt8 → Prop} (hp : ∀ b, p b → p (Byte.toUpper b))
    (quote : Option UInt8) {line : List UInt8} (h : ∀ b ∈ line, p b) :
    ∀ b ∈ foldFrom quote line, p b := by
  induction line generalizing quote with
  | nil => exact h
  | cons b rest ih =>
    obtain ⟨hb, hr⟩ := List.forall_mem_cons.1 h
    cases quote with
    | some q => exact List.forall_mem_cons.2 ⟨hb, ih _ hr⟩
    | none =>
      rw [foldFrom]
      by_cases hq : Byte.isQuote b = true
      · rw [if_pos hq]
        exact List.forall_mem_cons.2 ⟨hb, ih _ hr⟩
      · rw [if_neg hq]
        exact List.forall_mem_cons.2 ⟨hp b hb, ih _ hr⟩

theorem forall_fold {p : UInt8 → Prop} (hp : ∀ b, p b → p (Byte.toUpper b)) {line : List UInt8}
    (h : ∀ b ∈ line, p b) : ∀ b ∈ fold line, p b :=
  forall_foldFrom hp none h

/-- Folding leaves what is neither a letter in lower case nor a quote at the front of a line. -/
theorem fold_append {front : List UInt8}
    (hf : ∀ b ∈ front, Byte.isQuote b = false ∧ Byte.toUpper b = b) (rest : List UInt8) :
    fold (front ++ rest) = front ++ fold rest := by
  induction front with
  | nil => rfl
  | cons b front ih =>
    obtain ⟨⟨hq, hu⟩, hr⟩ := List.forall_mem_cons.1 hf
    rw [List.cons_append, fold, foldFrom, hq, if_neg Bool.false_ne_true, hu]
    exact congrArg (b :: ·) (ih hr)

theorem fold_append_of_isDigit {ds : List UInt8} (hd : ∀ d ∈ ds, Byte.isDigit d = true)
    (rest : List UInt8) :
    fold (ds ++ rest) = ds ++ fold rest :=
  fold_append (fun d hm => ⟨Byte.isQuote_of_isDigit (hd d hm), Byte.toUpper_of_isDigit (hd d hm)⟩)
    rest

theorem foldFrom_foldFrom (quote : Option UInt8) (line : List UInt8) :
    foldFrom quote (foldFrom quote line) = foldFrom quote line := by
  induction line generalizing quote with
  | nil => rfl
  | cons b rest ih =>
    cases quote with
    | some q => simp only [foldFrom, ih]
    | none =>
      by_cases hq : Byte.isQuote b = true
      · simp only [foldFrom, if_pos hq, ih]
      · have hq' : ¬ Byte.isQuote (Byte.toUpper b) = true := by rwa [Byte.isQuote_toUpper]
        simp only [foldFrom, if_neg hq, if_neg hq', Byte.toUpper_toUpper, ih]

theorem fold_fold (line : List UInt8) : fold (fold line) = fold line :=
  foldFrom_foldFrom none line

theorem head?_any_isDigit_fold (line : List UInt8) :
    (fold line).head?.any Byte.isDigit = line.head?.any Byte.isDigit := by
  cases line with
  | nil => rfl
  | cons b rest =>
    rw [fold, foldFrom]
    split
    · rfl
    · exact Byte.isDigit_toUpper b

theorem marker_notMem_fold {line : List UInt8} (h : Byte.marker ∉ line) :
    Byte.marker ∉ fold line := by
  have hne : ∀ b ∈ line, b ≠ Byte.marker := fun b hb he => h (he ▸ hb)
  exact fun hm => forall_fold (fun b => mt Byte.toUpper_eq_marker) hne _ hm rfl

end Case

namespace Decimal

theorem value_append (ds : List UInt8) (d : UInt8) :
    value (ds ++ [d]) = 10 * value ds + Byte.digitValue d := by
  rw [value, List.foldl_append]
  rfl

def valueFrom (n : Nat) (ds : List UInt8) : Nat :=
  ds.foldl (fun n d => 10 * n + Byte.digitValue d) n

theorem le_valueFrom (n : Nat) (ds : List UInt8) : n ≤ valueFrom n ds := by
  induction ds generalizing n with
  | nil => exact Nat.le_refl n
  | cons d ds ih => exact Nat.le_trans (by omega) (ih (10 * n + Byte.digitValue d))

/-- A number is at least ten times that of its digits but the last ones. -/
theorem ten_mul_value_le (ds : List UInt8) {more : List UInt8} (h : more ≠ []) :
    10 * value ds ≤ value (ds ++ more) := by
  cases more with
  | nil => exact absurd rfl h
  | cons d more =>
    have happend : value (ds ++ d :: more) = valueFrom (10 * value ds + Byte.digitValue d) more :=
      List.foldl_append
    have hle := le_valueFrom (10 * value ds + Byte.digitValue d) more
    omega

theorem ten_mul_value_take_le {ds : List UInt8} {k : Nat} (h : k < ds.length) :
    10 * value (ds.take k) ≤ value ds := by
  have hne : ds.drop k ≠ [] := by
    rw [Ne, List.drop_eq_nil_iff]
    omega
  have hle := ten_mul_value_le (ds.take k) hne
  rwa [List.take_append_drop] at hle

theorem value_digits (n : Nat) : value (digits n) = n := by
  fun_induction digits n with
  | case1 n h =>
    show 10 * 0 + Byte.digitValue (UInt8.ofNat (48 + n)) = n
    rw [Byte.digitValue, Byte.toNat_digit h]
    omega
  | case2 n h ih =>
    rw [value_append, ih, Byte.digitValue, Byte.toNat_digit (Nat.mod_lt _ (by decide))]
    omega

theorem isDigit_of_mem_digits {n : Nat} {d : UInt8} (h : d ∈ digits n) : Byte.isDigit d = true := by
  fun_induction digits n with
  | case1 n hn =>
    rw [List.mem_singleton.1 h, Byte.isDigit_iff, Byte.toNat_digit hn]
    omega
  | case2 n hn ih =>
    rcases List.mem_append.1 h with h | h
    · exact ih h
    · rw [List.mem_singleton.1 h, Byte.isDigit_iff, Byte.toNat_digit (Nat.mod_lt _ (by decide))]
      omega

theorem digits_zero : digits 0 = [byte '0'] := by
  rw [digits]
  rfl

theorem length_digits_le_succ {n k : Nat} (h : (digits (n / 10)).length ≤ k) :
    (digits n).length ≤ k + 1 := by
  rw [digits]
  split
  · exact Nat.le_add_left 1 k
  · rw [List.length_append, List.length_singleton]
    omega

theorem length_digits_le {n : Nat} (h : n < 65536) : (digits n).length ≤ 5 := by
  have hfirst : (digits (n / 10 / 10 / 10 / 10)).length ≤ 1 := by
    rw [digits, if_pos (by omega)]
    exact Nat.le_refl 1
  exact length_digits_le_succ (length_digits_le_succ
    (length_digits_le_succ (length_digits_le_succ hfirst)))

theorem exists_digits_eq_cons {n : Nat} (h : n ≠ 0) :
    ∃ d rest, digits n = d :: rest ∧ d ≠ byte '0' := by
  fun_induction digits n with
  | case1 n hn =>
    refine ⟨_, [], rfl, fun he => h ?_⟩
    have := congrArg UInt8.toNat he
    rw [Byte.toNat_digit hn] at this
    have hzero : (byte '0').toNat = 48 := rfl
    omega
  | case2 n hn ih =>
    obtain ⟨d, rest, he, hd⟩ := ih (by omega)
    exact ⟨d, rest ++ [_], by rw [he]; rfl, hd⟩

/-- Digits that do not begin with 0 are those of the number that they denote. -/
theorem digits_value {ds : List UInt8} (hne : ds ≠ []) (hd : ∀ d ∈ ds, Byte.isDigit d = true)
    (hhead : ∀ d rest, ds = d :: rest → d ≠ byte '0') : digits (value ds) = ds := by
  -- On the length, taking the last digit off: it is the remainder by ten, and what is left the
  -- quotient.
  induction hlen : ds.length generalizing ds with
  | zero => exact absurd (List.length_eq_zero_iff.1 hlen) hne
  | succ k ih =>
    obtain ⟨front, last, rfl⟩ : ∃ front last, ds = front ++ [last] :=
      ⟨_, _, (List.dropLast_concat_getLast hne).symm⟩
    rw [List.length_append, List.length_singleton] at hlen
    have hlast := Byte.isDigit_iff.1 (hd last (List.mem_append_right _ (List.mem_singleton_self _)))
    have hvalue : Byte.digitValue last < 10 := by
      rw [Byte.digitValue]
      omega
    have hbyte : UInt8.ofNat (48 + Byte.digitValue last) = last := by
      rw [← UInt8.toNat_inj, Byte.toNat_digit hvalue, Byte.digitValue]
      omega
    cases front with
    | nil =>
      rw [value_append, show value [] = 0 from rfl, Nat.mul_zero, Nat.zero_add, digits,
        if_pos hvalue, hbyte]
      rfl
    | cons first rest =>
      have hfront : digits (value (first :: rest)) = first :: rest :=
        ih (List.cons_ne_nil _ _) (fun d hm => hd d (List.mem_append_left _ hm))
          (fun d rest' he => hhead d (rest' ++ [last]) (by rw [he]; rfl)) (by omega)
      have hpos : value (first :: rest) ≠ 0 := by
        intro hzero
        rw [hzero, digits_zero] at hfront
        exact hhead first (rest ++ [last]) rfl (List.cons.inj hfront).1.symm
      rw [value_append, digits, if_neg (by omega),
        show (10 * value (first :: rest) + Byte.digitValue last) / 10 =
        value (first :: rest) by omega, hfront, show (10 * value (first :: rest) + Byte.digitValue
          last) % 10 =
        Byte.digitValue last by omega, hbyte]

end Decimal

namespace Lexeme

theorem skipBlanks_skipBlanks (text : List UInt8) :
    skipBlanks (skipBlanks text) = skipBlanks text :=
  List.dropWhile_idempotent _ _

section
variable {blanks : List UInt8} (hb : ∀ b ∈ blanks, Byte.isBlank b = true)
include hb

theorem skipBlanks_append (text : List UInt8) : skipBlanks (blanks ++ text) = skipBlanks text :=
  List.dropWhile_append_of_pos hb

theorem skipBlanks_of_all : skipBlanks blanks = [] := by
  have h := skipBlanks_append hb []
  rwa [List.append_nil] at h

end

theorem lineNumber_suffix (text : List UInt8) : (lineNumber text).2 <:+ text :=
  (lineNumberFrom_suffix 0 _).trans (skipBlanks_suffix text)

theorem exists_digits_append (n : Nat) (text : List UInt8) :
    ∃ ds, (∀ d ∈ ds, Byte.isDigit d = true) ∧ ds ++ (lineNumberFrom n text).2 = text := by
  fun_induction lineNumberFrom n text with
  | case1 n => exact ⟨[], by simp⟩
  | case2 n d rest hd hn => exact ⟨[], by simp⟩
  | case3 n d rest hd hn ih =>
    obtain ⟨ds, hds, he⟩ := ih
    exact ⟨d :: ds, List.forall_mem_cons.2 ⟨hd, hds⟩, congrArg (d :: ·) he⟩
  | case4 n d rest hd => exact ⟨[], by simp⟩

theorem exists_front_append (text : List UInt8) :
    ∃ front, (∀ b ∈ front, Byte.isBlank b = true ∨ Byte.isDigit b = true) ∧
      front ++ skipBlanks (lineNumber text).2 = text := by
  obtain ⟨ds, hds, he⟩ := exists_digits_append 0 (skipBlanks text)
  have hblank (text : List UInt8) : ∀ b ∈ text.takeWhile Byte.isBlank, Byte.isBlank b = true :=
    fun b hb => List.all_eq_true.1 List.all_takeWhile b hb
  refine ⟨text.takeWhile Byte.isBlank ++ (ds ++ (lineNumber text).2.takeWhile Byte.isBlank), ?_, ?_⟩
  · intro b hb
    simp only [List.mem_append] at hb
    obtain hb | hb | hb := hb
    · exact Or.inl (hblank _ b hb)
    · exact Or.inr (hds b hb)
    · exact Or.inl (hblank _ b hb)
  · have hafter : (lineNumber text).2.takeWhile Byte.isBlank ++ skipBlanks (lineNumber text).2 =
        (lineNumber text).2 := List.takeWhile_append_dropWhile
    rw [List.append_assoc, List.append_assoc, hafter]
    exact (congrArg (text.takeWhile Byte.isBlank ++ ·) he).trans List.takeWhile_append_dropWhile

theorem length_lineNumber_lt {text : List UInt8} (h : (lineNumber text).1 ≠ 0) :
    (lineNumber text).2.length < text.length := by
  have hs := (skipBlanks_suffix text).length_le
  have hn : (lineNumberFrom 0 (skipBlanks text)).1.toUInt16 ≠ 0 := h
  show (lineNumberFrom 0 (skipBlanks text)).2.length < text.length
  cases ht : skipBlanks text with
  | nil =>
    rw [ht] at hn
    exact absurd rfl hn
  | cons d rest =>
    rw [ht, List.length_cons] at hs
    rw [ht, lineNumberFrom] at hn
    rw [lineNumberFrom]
    by_cases hd : Byte.isDigit d = true
    · rw [if_pos hd, if_neg (by omega)]
      have := (lineNumberFrom_suffix (10 * 0 + Byte.digitValue d) rest).length_le
      omega
    · rw [if_neg hd] at hn
      exact absurd rfl hn

theorem lineNumberFrom_lt {n : Nat} (text : List UInt8) (hn : n < 65530) :
    (lineNumberFrom n text).1 < 65530 ∨ (lineNumberFrom n text).1 = 65535 := by
  fun_induction lineNumberFrom n text with
  | case1 n => exact Or.inl hn
  | case2 n d rest hd hlarge => exact Or.inr rfl
  | case3 n d rest hd hsmall ih =>
    obtain ⟨hlo, hhi⟩ := Byte.isDigit_iff.1 hd
    exact ih (by rw [Byte.digitValue]; omega)
  | case4 n d rest hd => exact Or.inl hn

theorem lineNumber_lt (text : List UInt8) :
    (lineNumber text).1.toNat < 65530 ∨ (lineNumber text).1 = 65535 := by
  obtain hlt | hmax := lineNumberFrom_lt (skipBlanks text) (show 0 < 65530 by decide)
  · left
    show ((lineNumberFrom 0 (skipBlanks text)).1.toUInt16).toNat < 65530
    rw [UInt16.toNat_ofNat_of_lt' (by show _ < 65536; omega)]
    exact hlt
  · right
    show (lineNumberFrom 0 (skipBlanks text)).1.toUInt16 = 65535
    rw [hmax]
    rfl

section
variable {ds rest : List UInt8} (hd : ∀ d ∈ ds, Byte.isDigit d = true)
  (hr : rest.head?.any Byte.isDigit = false)
include hd hr

/-- Reading goes on to the last digit where the number stays small, and otherwise stops at the
largest number. -/
theorem lineNumberFrom_append {n : Nat} (hn : n < 65530) :
    (Decimal.valueFrom n ds < 65530 → lineNumberFrom n (ds ++ rest) =
      (Decimal.valueFrom n ds, rest)) ∧
      (65530 ≤ Decimal.valueFrom n ds → (lineNumberFrom n (ds ++ rest)).1 = 65535) := by
  induction ds generalizing n with
  | nil =>
    refine ⟨fun _ => ?_, fun h => absurd hn (Nat.not_lt.2 h)⟩
    cases rest with
    | nil => rfl
    | cons b tail => exact if_neg (by simpa using hr)
  | cons d ds ih =>
    have hdigit := hd d List.mem_cons_self
    obtain ⟨hlo, hhi⟩ := Byte.isDigit_iff.1 hdigit
    have hvalue : Byte.digitValue d < 10 := by
      rw [Byte.digitValue]
      omega
    rw [List.cons_append, lineNumberFrom, if_pos hdigit]
    by_cases hlarge : 6553 ≤ n
    · -- The digit is left unread: with it the number would be too large, and no further digit makes
      -- it smaller.
      have hle : 10 * n + Byte.digitValue d ≤ Decimal.valueFrom n (d :: ds) :=
        Decimal.le_valueFrom _ ds
      rw [if_pos hlarge]
      exact ⟨fun h => by omega, fun _ => rfl⟩
    · have hnext : 10 * n + Byte.digitValue d < 65530 := by omega
      rw [if_neg hlarge]
      exact ih (fun d hm => hd d (List.mem_cons_of_mem _ hm)) hnext

/-- Digits that begin a line are its number, and what follows them is left. -/
theorem lineNumber_append (hne : ds ≠ [] ∨ rest = []) :
    (Decimal.value ds < 65530 → lineNumber (ds ++ rest) = ((Decimal.value ds).toUInt16, rest)) ∧
      (65530 ≤ Decimal.value ds → (lineNumber (ds ++ rest)).1 = 65535) := by
  have hblanks : skipBlanks (ds ++ rest) = ds ++ rest := by
    cases ds with
    | nil =>
      obtain hne | rfl := hne
      · exact absurd rfl hne
      · rfl
    | cons d ds =>
      exact List.dropWhile_cons_of_neg
        (by simpa using Byte.isBlank_of_isDigit (hd d List.mem_cons_self))
  obtain ⟨hsmall, hlarge⟩ := lineNumberFrom_append hd hr (show 0 < 65530 by decide)
  unfold lineNumber
  rw [hblanks]
  refine ⟨fun h => ?_, fun h => ?_⟩
  · rw [hsmall h]
    rfl
  · show (lineNumberFrom 0 (ds ++ rest)).1.toUInt16 = 65535
    rw [hlarge h]
    rfl

end

end Lexeme
end LineBasic
