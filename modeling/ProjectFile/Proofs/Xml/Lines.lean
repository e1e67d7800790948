import ProjectFile.Xml.Basic

/-!
Rows and columns. Counting from the start of a text up to one of its characters gives the row of the
line that it stands in and its column in this line, so the position leads back to the character.
Only line feeds end lines, and every other character is one column wide.
-/

namespace ProjectFile

/-- Joining puts the separators back that splitting takes away. -/
theorem Text.join_splitOn (separator : Char) (t : Text) :
    join [separator] (splitOn separator t) = t := by
  induction t with
  | nil => rfl
  | cons c t ih =>
    obtain ⟨part, parts, hsplit⟩ := List.exists_cons_of_ne_nil (splitOn_ne_nil separator t)
    rw [hsplit] at ih
    rw [splitOn]
    split
    · next hc => rw [hsplit, join_cons_cons, ih, hc]; rfl
    · rw [hsplit]
      cases parts with
      | nil => simpa using ih
      | cons next parts => simpa [join_cons_cons] using ih

namespace Xml.Position

/-- The character of a text at a position, both of whose numbers count from 1: the row tells the
line, and the column the character in it. -/
def character? (p : Position) (t : Text) : Option Char :=
  match p with
  | ⟨row + 1, column + 1⟩ => ((Text.splitOn '\n' t)[row]?).bind fun content => content[column]?
  | _ => none

theorem exists_line {c : Char} (hc : c ≠ '\n') (p : Position) (before rest : Text) :
    ∃ row column content, p.after before =
        ⟨p.row + row, (if row = 0 then p.column else 1) + column⟩ ∧
      (Text.splitOn '\n' (before ++ c :: rest))[row]? = some content ∧
      content[column]? = some c := by
  induction before generalizing p with
  | nil =>
    obtain ⟨part, parts, hsplit⟩ := List.exists_cons_of_ne_nil (Text.splitOn_ne_nil '\n' rest)
    exact ⟨0, 0, c :: part, rfl, by simp [Text.splitOn, hc, hsplit], rfl⟩
  | cons d before ih =>
    obtain ⟨row, column, content, hafter, hline, hcolumn⟩ := ih (p.next d)
    rw [after_cons, hafter, List.cons_append, Text.splitOn, next]
    by_cases hd : d = '\n'
    · refine ⟨row + 1, column, content, ?_, ?_, hcolumn⟩
      · rw [if_pos hd]
        simp only [Nat.add_one_ne_zero, if_false, ite_self, Nat.add_assoc, Nat.add_comm 1]
      · rw [if_pos hd, List.getElem?_cons_succ]
        exact hline
    · rw [if_neg hd, if_neg hd]
      obtain ⟨part, parts, hsplit⟩ := List.exists_cons_of_ne_nil
        (Text.splitOn_ne_nil '\n' (before ++ c :: rest))
      rw [hsplit] at hline ⊢
      cases row with
      | zero =>
        obtain rfl : part = content := by simpa using hline
        refine ⟨0, column + 1, d :: part, ?_, rfl, hcolumn⟩
        simp only [if_true, Nat.add_assoc, Nat.add_comm 1]
      | succ row => exact ⟨row + 1, column, content, rfl, hline, hcolumn⟩

/-- The position of a character, found by counting what is before it, leads to the character. -/
theorem character?_after {c : Char} (hc : c ≠ '\n') (before rest : Text) :
    (start.after before).character? (before ++ c :: rest) = some c := by
  obtain ⟨row, column, content, hafter, hline, hcolumn⟩ := exists_line hc start before rest
  have hposition : start.after before = ⟨row + 1, column + 1⟩ := by
    rw [hafter]
    simp [start, Nat.add_comm]
  rw [hposition]
  simpa [character?, hline] using hcolumn

end Xml.Position

end ProjectFile
