namespace Reflector.Text

/-- The character is white space in some script: the ASCII controls from tab to carriage return,
the space, the next-line control and the spaces and separators beyond ASCII. -/
def isBlank (c : Char) : Bool :=
  let n := c.toNat
  (9 ≤ n && n ≤ 13) || n == 0x20 || n == 0x85 || n == 0xA0 || n == 0x1680
    || (0x2000 ≤ n && n ≤ 0x200A) || n == 0x2028 || n == 0x2029 || n == 0x202F || n == 0x205F
    || n == 0x3000

/-- The white space between the tokens of a declaration: space, tab, line feed, form feed and
carriage return. The vertical tab is not among it. -/
def isGapChar (c : Char) : Bool :=
  c == ' ' || c == '\t' || c == '\n' || c == '\x0c' || c == '\r'

theorem isBlank_of_isGapChar {c : Char} (h : isGapChar c = true) : isBlank c = true := by
  simp only [isGapChar, Bool.or_eq_true, beq_iff_eq] at h
  rcases h with (((h | h) | h) | h) | h <;> subst h <;> decide

def trimEnd (p : Char → Bool) (cs : List Char) : List Char :=
  (cs.reverse.dropWhile p).reverse

def trim (p : Char → Bool) (cs : List Char) : List Char :=
  trimEnd p (cs.dropWhile p)

/-- The last word of a text: its last longest run without a blank, or `none` if all is blank. -/
def lastWord? (cs : List Char) : Option (List Char) :=
  match (cs.reverse.dropWhile isBlank).takeWhile fun c => !isBlank c with
  | [] => none
  | w => some w.reverse

@[simp] theorem trimEnd_nil (p : Char → Bool) : trimEnd p [] = [] := rfl

@[simp] theorem trim_nil (p : Char → Bool) : trim p [] = [] := rfl

theorem getLast?_trimEnd {p : Char → Bool} {cs : List Char} {c : Char}
    (h : (trimEnd p cs).getLast? = some c) : p c = false := by
  rw [trimEnd, List.getLast?_reverse] at h
  have := List.head?_dropWhile_not p cs.reverse
  rw [h] at this
  simpa using this

end Reflector.Text
