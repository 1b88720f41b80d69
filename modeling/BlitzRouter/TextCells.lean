import Mathlib.Data.List.Basic

namespace BlitzRouter.TextCells

-- Separated text: the lines of a text, the cells of a line, the blanks around
-- one, and the decimals in it.
def isWhitespace (c : Char) : Bool :=
  (9 ≤ c.toNat && c.toNat ≤ 13) || (0x2000 ≤ c.toNat && c.toNat ≤ 0x200a) ||
    [0x20,0x85,0xa0,0x1680,0x2028,0x2029,0x202f,0x205f,0x3000].contains c.toNat

def trim (s : List Char) : List Char :=
  ((s.dropWhile isWhitespace).reverse.dropWhile isWhitespace).reverse

-- A carriage return before a line feed goes with it.
def chomp (line : List Char) : List Char := if line.getLast? = some '\r' then line.dropLast else line

-- What a buffered reader takes for lines: each is ended by a line feed, but for
-- a last one that is not empty.
def readLines (text : List Char) : List (List Char) :=
  let pieces := text.splitOn '\n'
  pieces.dropLast.map chomp++(if (pieces.getLastD []).isEmpty then [] else [pieces.getLastD []])

-- One plus sign may stand before the digits.
def unmark : List Char → List Char
  | '+'::rest => rest
  | s => s

def unsigned (bound : Nat) (s : List Char) : Option Nat :=
  let digits := unmark s
  if digits.isEmpty || !digits.all Char.isDigit then none
  else if Nat.ofDigitChars 10 digits 0 < bound then some (Nat.ofDigitChars 10 digits 0)
  else none

-- What stands in a cell without being taken for the end of one.
structure Plain (s : List Char) : Prop where
  comma : ',' ∉ s
  feed : '\n' ∉ s
  carriage : '\r' ∉ s

def Solid (s : List Char) : Prop := ∀ c ∈ s, isWhitespace c = false

section Laws
variable {s : List Char} {n bound : Nat}

theorem Solid.dropWhile (solid : Solid s) : s.dropWhile isWhitespace = s := by
  cases s with
  | nil => rfl
  | cons c rest => exact List.dropWhile_cons_of_neg (by simp [solid c List.mem_cons_self])

theorem Solid.reverse (solid : Solid s) : Solid s.reverse := fun c member => solid c (List.mem_reverse.mp member)

theorem Solid.trim (solid : Solid s) : trim s = s := by
  simp [TextCells.trim,solid.dropWhile,solid.reverse.dropWhile]

theorem digit_of_mem {c : Char} (member : c ∈ Nat.toDigits 10 n) : c.isDigit = true :=
  Nat.isDigit_of_mem_toDigits (by omega) (by omega) member

theorem digit_range {c : Char} (digit : c.isDigit = true) : 48 ≤ c.toNat ∧ c.toNat ≤ 57 := by
  simp only [Char.isDigit,ge_iff_le,Bool.and_eq_true,decide_eq_true_eq,UInt32.le_iff_toNat_le] at digit
  exact digit

theorem digits_solid : Solid (Nat.toDigits 10 n) := by
  intro c member
  obtain ⟨low,high⟩ := digit_range (digit_of_mem member)
  simp only [isWhitespace,List.contains_eq_mem,List.mem_cons,List.not_mem_nil,or_false,Bool.or_eq_false_iff,Bool.and_eq_false_iff,
    decide_eq_false_iff_not]
  omega

theorem not_mem_digits {c : Char} (other : c.isDigit = false) : c ∉ Nat.toDigits 10 n := by
  intro member
  simp [digit_of_mem member] at other

theorem plain_digits : Plain (Nat.toDigits 10 n) :=
  ⟨not_mem_digits (by decide),not_mem_digits (by decide),not_mem_digits (by decide)⟩

theorem mem_intercalate {sep : List Char} {cells : List (List Char)} {c : Char} (member : c ∈ sep.intercalate cells) :
    c ∈ sep ∨ ∃ cell ∈ cells, c ∈ cell := by
  induction cells with
  | nil => cases member
  | cons cell rest ih =>
    by_cases last : rest = []
    · rw [last,List.intercalate_singleton] at member
      exact .inr ⟨cell,List.mem_cons_self,member⟩
    · rw [List.intercalate_cons_of_ne_nil last] at member
      rcases List.mem_append.mp member with front | later
      · rcases List.mem_append.mp front with here | between
        · exact .inr ⟨cell,List.mem_cons_self,here⟩
        · exact .inl between
      · rcases ih later with between | ⟨other,inside,here⟩
        · exact .inl between
        · exact .inr ⟨other,List.mem_cons_of_mem _ inside,here⟩

theorem chomp_of_not_mem (bare : '\r' ∉ s) : chomp s = s := by
  rw [chomp,if_neg fun last => bare (List.mem_of_getLast? last)]

-- Lines that are written one after another are read back.
theorem readLines_written {written : List (List Char)} (single : ∀ line ∈ written, '\n' ∉ line ∧ '\r' ∉ line) :
    readLines (written.flatMap fun line => line++['\n']) = written := by
  have joined : (written.flatMap fun line => line++['\n']) = ['\n'].intercalate (written++[[]]) := by
    clear single
    induction written with
    | nil => rfl
    | cons line rest ih => rw [List.flatMap_cons,ih,List.cons_append,List.intercalate_cons_of_ne_nil (by simp)]
  have apart : ∀ line ∈ written++[[]], '\n' ∉ line := by
    intro line member
    rcases List.mem_append.mp member with inside | last
    · exact (single line inside).1
    · rw [List.mem_singleton.mp last]
      exact List.not_mem_nil
  have same : written.map chomp = written :=
    (List.map_congr_left fun line member => chomp_of_not_mem (single line member).2).trans (List.map_id' _)
  simp [readLines,joined,List.splitOn_intercalate '\n' apart (by simp),same,List.getLastD_eq_getLast?]

theorem unmark_digits : unmark (Nat.toDigits 10 n) = Nat.toDigits 10 n := by
  unfold unmark
  split
  · next rest shape => exact absurd (shape ▸ List.mem_cons_self) (not_mem_digits (n := n) (c := '+') (by decide))
  · rfl

theorem unsigned_digits (fits : n < bound) : unsigned bound (Nat.toDigits 10 n) = some n := by
  have all : (Nat.toDigits 10 n).all Char.isDigit = true := List.all_eq_true.mpr fun c member => digit_of_mem member
  simp [unsigned,unmark_digits,all,Nat.toDigits_ne_nil,fits]

end Laws
end BlitzRouter.TextCells
