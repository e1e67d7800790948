import ProjectFile.Evaluation.Engine
import ProjectFile.Proofs.Text.Boundary

/-!
What is told of an engine that has failed. However it ended and whatever it printed, it counts as
failed, and its complaint is shown whole or as the longest beginning that fits, followed by three
dots.
-/

namespace ProjectFile.Evaluation

theorem complaint_eq_ite (f : Finished) :
    complaint f = if (Text.decodeLossy f.errors).trim ≠ [] then (Text.decodeLossy f.errors).trim
      else (Text.decodeLossy f.output).trim := by
  unfold complaint
  by_cases h : (Text.decodeLossy f.errors).trim = []
  · simp [h]
  · simp [h]

/-- An engine that could be run has its ending judged. -/
theorem run_of_launched {launch : Launcher} {engine path : Path} {sourceExtension : Text}
    {f : Finished} (hnul : hasNul (command engine path) = false)
    (hlaunch : launch (command engine path) = .ok f) :
    run launch engine sourceExtension path = ofFinished path sourceExtension f := by
  simp only [run, hnul, Bool.false_eq_true, if_false, hlaunch]

/-- Of an engine that did not end well nothing is decoded. -/
theorem ofFinished_of_failed {path : Path} {sourceExtension : Text} {f : Finished}
    (hstatus : f.status.isSuccess = false) : ofFinished path sourceExtension f =
      .error (.failed f.status (Text.clip maxShown (complaint f))) := by
  simp only [ofFinished, hstatus, Bool.false_eq_true, if_false]

/-- An engine that was run and did not end well has failed, whatever it printed. What is shown is
its complaint, which is what it wrote as errors or, if that is blank, what else it printed, trimmed.
If the complaint has more than 2048 bytes, the longest beginning of it with at most 2048 bytes is
shown, with three dots after it. The search for its end tries at most three offsets in vain, at each
of which a byte stands that continues a character, and stops where a character starts. -/
theorem evaluate_failed {launch : Launcher} {engine path : Path} {f : Finished}
    (hnul : hasNul (command engine path) = false)
    (hlaunch : launch (command engine path) = .ok f) (hstatus : f.status.isSuccess = false)
    (sourceExtension : Text) :
    let errors := (Text.decodeLossy f.errors).trim
    let detail := if errors ≠ [] then errors else (Text.decodeLossy f.output).trim
    ∃ shown : Text,
      ((Evaluator.engine launch engine sourceExtension).evaluate path).result =
        .error (.failed f.status shown) ∧
      (detail.byteLength ≤ 2048 → shown = detail) ∧
      (2048 < detail.byteLength → ∃ front : Text, shown = front ++ "..." ∧
        front <+: detail ∧ front.byteLength ≤ 2048 ∧
        (∀ other : Text, other <+: detail → other.byteLength ≤ 2048 → other <+: front) ∧
        ∃ k ≤ 3, detail.boundaryBelow 2048 = 2048 - k ∧ front.byteLength = 2048 - k ∧
          (detail.isBoundary (2048 - k) = true ∧
            ∃ b, detail.encode[2048 - k]? = some b ∧ Text.isContinuation b = false) ∧
          ∀ j < k, detail.isBoundary (2048 - j) = false ∧
            ∃ b, detail.encode[2048 - j]? = some b ∧ Text.isContinuation b = true) := by
  intro errors detail
  have hdetail : complaint f = detail := complaint_eq_ite f
  refine ⟨Text.clip 2048 detail, ?_, fun hle => if_pos hle, fun hlong => ?_⟩
  · rw [Evaluator.result_engine, run_of_launched hnul hlaunch, ofFinished_of_failed hstatus,
      hdetail]
    rfl
  · obtain ⟨front, hshown, hprefix, hlength, hlongest⟩ := Text.exists_clip_eq hlong
    obtain ⟨k, hk, hkn, hstop, hvain⟩ := Text.exists_boundaryBelow_eq_sub (Nat.le_of_lt hlong)
    have hboundary := Text.isBoundary_boundaryBelow detail 2048
    rw [hstop] at hlength hboundary
    have hbyte (j : Nat) : ∃ b, detail.encode[2048 - j]? = some b ∧
        Text.isContinuation b = !detail.isBoundary (2048 - j) :=
      Text.exists_byte_of_lt (by omega)
    refine ⟨front, hshown, hprefix, by omega, hlongest, k, hk, hstop, hlength,
      ⟨hboundary, ?_⟩, fun j hj => ⟨hvain j hj, ?_⟩⟩
    · simpa [hboundary] using hbyte k
    · simpa [hvain j hj] using hbyte j

/-- A complaint whose last but one character begins within the limit and ends behind it. -/
def longComplaint : Text := List.replicate 2047 'a' ++ "€b"

/-- An engine that prints what could be decoded, and complains at length between white space. -/
def complaining : Finished where
  status := .signal 6 true
  output := Text.encode "\x7b\x7d"
  errors := Text.encode (" " ++ longComplaint ++ "\n")

/-- The character is left out as a whole. -/
theorem evaluate_failed_long :
    ((Evaluator.engine (fun _ => .ok complaining) ⟨"dotnet"⟩ ".cs").evaluate ⟨"/a.proj"⟩).result =
      .error (.failed (.signal 6 true) (List.replicate 2047 'a' ++ "...")) := by
  have hdetail : (Text.decodeLossy complaining.errors).trim = longComplaint := by decide +kernel
  obtain ⟨shown, hresult, -, hlong⟩ := @evaluate_failed (fun _ => .ok complaining) ⟨"dotnet"⟩
    ⟨"/a.proj"⟩ complaining (by decide) rfl rfl ".cs"
  rw [hdetail, if_pos (by decide)] at hlong
  obtain ⟨front, rfl, hprefix, -, hlongest, k, -, hstop, hlength, -⟩ := hlong (by decide +kernel)
  have hfits : List.replicate 2047 'a' <+: front :=
    hlongest _ (List.prefix_append _ _) (by decide +kernel)
  have hbytes : front.byteLength = Text.byteLength (List.replicate 2047 'a') := by
    rw [hlength, ← hstop]
    decide +kernel
  have hfront : front <+: List.replicate 2047 'a' :=
    Text.isPrefix_of_byteLength_le hprefix (List.prefix_append _ _) (Nat.le_of_eq hbytes)
  obtain rfl := hfits.eq_of_length_le hfront.length_le
  exact hresult

end ProjectFile.Evaluation
