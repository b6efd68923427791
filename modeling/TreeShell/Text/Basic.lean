/-! # Texts

Texts are cut into pieces, lines and words, trimmed of their blanks, and stored as bytes. -/

/-! ## Cutting and joining

`pieces` cuts a list at every element that is a separator and keeps empty pieces, so a list
with `n` separators has `n + 1` pieces. Paths, lines and words are all cut with it; `glue`
puts a separator back between the pieces. -/

namespace TreeShell.Text

variable {α : Type}

def pieces (sep : α → Bool) : List α → List (List α)
  | [] => [[]]
  | a :: as =>
    if sep a then [] :: pieces sep as
    else match pieces sep as with
      | [] => [[a]]
      | p :: ps => (a :: p) :: ps

def glue (sep : List α) : List (List α) → List α
  | [] => []
  | [p] => p
  | p :: q :: ps => p ++ sep ++ glue sep (q :: ps)

theorem pieces_ne_nil (sep : α → Bool) (as : List α) : pieces sep as ≠ [] := by
  cases as with
  | nil => simp [pieces]
  | cons a as =>
    simp only [pieces]
    split
    · simp
    · split <;> simp

theorem not_sep_of_mem_pieces {sep : α → Bool} {as p : List α} {a : α}
    (hp : p ∈ pieces sep as) (ha : a ∈ p) : sep a = false := by
  induction as generalizing p with
  | nil => simp_all [pieces]
  | cons b as ih =>
    simp only [pieces] at hp
    split at hp
    · rcases List.mem_cons.1 hp with rfl | hp
      · simp at ha
      · exact ih hp ha
    · rename_i hb
      cases hps : pieces sep as with
      | nil => exact absurd hps (pieces_ne_nil sep as)
      | cons q qs =>
        rw [hps] at hp ih
        rcases List.mem_cons.1 hp with rfl | hp
        · rcases List.mem_cons.1 ha with rfl | ha
          · simpa using hb
          · exact ih List.mem_cons_self ha
        · exact ih (List.mem_cons_of_mem _ hp) ha

/-- The pieces of `s` between the occurrences of the character `sep`. -/
def split (sep : Char) (s : String) : List String :=
  (pieces (· == sep) s.toList).map String.ofList

/-- The parts with `sep` between each two of them. -/
def join (sep : String) (parts : List String) : String :=
  String.ofList (glue sep.toList (parts.map String.toList))

/-- What follows `lead` in `as`, if `as` starts with `lead`. -/
def after? [DecidableEq α] : (lead as : List α) → Option (List α)
  | [], as => some as
  | _ :: _, [] => none
  | l :: lead, a :: as => if l = a then after? lead as else none

theorem after?_eq_some_iff [DecidableEq α] {lead as rest : List α} :
    after? lead as = some rest ↔ as = lead ++ rest := by
  induction lead generalizing as with
  | nil => simp [after?]
  | cons l lead ih =>
    cases as with
    | nil => simp [after?]
    | cons a as =>
      by_cases h : l = a
      · simp [after?, h, ih]
      · simp [after?, h, Ne.symm h]

theorem after?_eq_none_iff [DecidableEq α] {lead as : List α} :
    after? lead as = none ↔ ¬ lead <+: as := by
  rw [Option.eq_none_iff_forall_ne_some]
  constructor
  · rintro h ⟨rest, hrest⟩
    exact h rest (after?_eq_some_iff.2 hrest.symm)
  · rintro h rest hrest
    exact h ⟨rest, (after?_eq_some_iff.1 hrest).symm⟩

end TreeShell.Text

/-! ## Blank characters and words

A character is blank when it has the Unicode property `White_Space`. Words are the maximal
runs without blanks, and trimming takes the blanks off the ends of a text. -/

namespace TreeShell.Text

/-- The first and last code points of the ranges that make up `White_Space`. -/
def blankRanges : List (Nat × Nat) :=
  [(0x09, 0x0D), (0x20, 0x20), (0x85, 0x85), (0xA0, 0xA0), (0x1680, 0x1680), (0x2000, 0x200A),
    (0x2028, 0x2029), (0x202F, 0x202F), (0x205F, 0x205F), (0x3000, 0x3000)]

def isBlank (c : Char) : Bool :=
  blankRanges.any fun range => range.1 ≤ c.toNat && c.toNat ≤ range.2

/-- What is left without the blanks at the start. -/
def skipBlank (cs : List Char) : List Char := cs.dropWhile isBlank

/-- What is left without the blanks at the end. -/
def cutBlank (cs : List Char) : List Char := (cs.reverse.dropWhile isBlank).reverse

def trimStart (s : String) : String := String.ofList (skipBlank s.toList)

def trim (s : String) : String := String.ofList (cutBlank (skipBlank s.toList))

/-- The words of `s` in order: its pieces between blanks, the empty ones left out. -/
def words (s : String) : List String :=
  ((pieces isBlank s.toList).filter (!·.isEmpty)).map String.ofList

/-! ## Text as bytes

A file and an input stream are lists of bytes; they hold a text when they are valid UTF-8. -/

abbrev Bytes := List UInt8

def decode? (bytes : Bytes) : Option String := String.fromUTF8? ⟨bytes.toArray⟩

def encode (s : String) : Bytes := s.toUTF8.data.toList

end TreeShell.Text
