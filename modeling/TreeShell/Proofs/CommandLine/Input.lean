import Mathlib.Data.List.Basic
import TreeShell.CommandLine.Run
import TreeShell.Proofs.Text.Pieces
import TreeShell.Proofs.Text.Words

/-! # Lines of the input

No line of the input holds a line feed, and texts without one that are written below each other
are the lines of the input, each without the carriage return that may end it. -/

namespace TreeShell.CommandLine

open Text (Bytes)

/-- The text without a carriage return at its end. -/
def chomp (line : String) : String :=
  if line.toList.getLast? = some '\r' then String.ofList line.toList.dropLast else line

/-- Only a carriage return ends in the byte 13. -/
theorem getLast?_encode_iff (line : String) :
    (Text.encode line).getLast? = some 13 ↔ line.toList.getLast? = some '\r' := by
  rw [Text.encode_eq]
  rcases List.eq_nil_or_concat line.toList with hline | ⟨cs, c, hline⟩
  · rw [hline]
    exact iff_of_false nofun nofun
  · rw [hline, List.concat_eq_append, List.flatMap_append, List.flatMap_singleton,
      List.getLast?_append_of_ne_nil _ String.utf8EncodeChar_ne_nil, List.getLast?_concat,
      Option.some.injEq]
    constructor
    · intro h
      exact Char.toNat_inj.1 (Text.toNat_of_mem_utf8EncodeChar (List.mem_of_getLast? h) (by decide))
    · rintro rfl
      rfl

theorem decode?_withoutReturn (line : String) :
    Text.decode? (withoutReturn (Text.encode line)) = some (chomp line) := by
  unfold withoutReturn chomp
  by_cases hlast : line.toList.getLast? = some '\r'
  · obtain ⟨cs, hcs⟩ := List.getLast?_eq_some_iff.1 hlast
    have hline : line = String.ofList cs ++ "\r" := by
      rw [← String.toList_inj, hcs]
      simp
    have hbytes : (Text.encode line).dropLast = Text.encode (String.ofList cs) := by
      have hreturn : Text.encode "\r" = [13] := rfl
      rw [hline, Text.encode_append, hreturn, List.dropLast_concat]
    rw [if_pos hlast, if_pos (beq_iff_eq.2 ((getLast?_encode_iff line).2 hlast)), hbytes,
      Text.decode?_encode, hcs, List.dropLast_concat]
  · rw [if_neg hlast, if_neg fun h => hlast ((getLast?_encode_iff line).1 (beq_iff_eq.1 h)),
      Text.decode?_encode]

/-- The text that has the given lines, each ended by a line feed. -/
def ofLines (lines : List String) : String := Text.join "" (lines.map (· ++ "\n"))

theorem pieces_encode_ofLines {lines : List String} (h : ∀ line ∈ lines, '\n' ∉ line.toList) :
    Text.pieces (· == 10) (Text.encode (ofLines lines)) = lines.map Text.encode ++ [[]] := by
  induction lines with
  | nil => rfl
  | cons line lines ih =>
    have hbytes : ∀ b ∈ Text.encode line, (b == 10) = false := by
      intro b hb
      rw [beq_eq_false_iff_ne]
      rintro rfl
      exact h line List.mem_cons_self ((Text.mem_encode_iff (c := '\n') (by decide)).1 hb)
    have hfeed : Text.encode "\n" = [10] := rfl
    rw [ofLines, List.map_cons, Text.join_empty_cons, Text.encode_append, Text.encode_append,
      hfeed, List.append_assoc, List.singleton_append, Text.pieces_append_sep rfl hbytes]
    exact congrArg (Text.encode line :: ·) (ih fun l hl => h l (List.mem_cons_of_mem _ hl))

theorem inputLines_ofLines {lines : List String} (h : ∀ line ∈ lines, '\n' ∉ line.toList) :
    inputLines (Text.encode (ofLines lines)) = lines.map fun line => some (chomp line) := by
  simp [inputLines, pieces_encode_ofLines h, decode?_withoutReturn]

end TreeShell.CommandLine
