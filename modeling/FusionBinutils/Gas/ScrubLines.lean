import FusionBinutils.Gas.ScrubSteps
import Mathlib.Logic.Function.Iterate

/-! The newlines in a run of the scrubber. -/
namespace FusionBinutils.Gas.Scrub

open Scrubber

variable {s : Scrubber} {ch : Char} {n : Nat} {text : Text}

theorem get_of_rest (h : s.rest = []) : s.get = (none, s) := by
  rcases get_cases s with ⟨hget, -⟩ | ⟨ch, input, chunks, -, hrest⟩
  · exact hget
  · rw [h] at hrest
    cases hrest

theorem putTop_ended (hs : s.state = .lineStart)
    (hinput : s.rest = [] ∨ s.input = ['\n'] ∧ s.chunks = []) (hc : s.kept + lines [ch] = n) :
    (s.putTop ch).count = n ∧ (s.putTop ch).Ended := by
  have hnormal : (s.emit ch).state.normal = true := by
    have hstate : (s.emit ch).state = .lineStart := hs
    rw [hstate]
    rfl
  have hkept : (s.emit ch).kept = n := (kept_emit ch s).trans hc
  simp only [Scrubber.putTop, Scrubber.put]
  split
  · refine ⟨hkept, ?_⟩
    rcases hinput with hrest | ⟨hinput, hchunks⟩
    · exact .returned hrest rfl
    · exact .owed hinput hchunks hnormal (.inr rfl)
  · refine ⟨hkept, ?_⟩
    rcases hinput with hrest | ⟨hinput, hchunks⟩
    · exact .idle hrest hs (.inl rfl)
    · exact .owed hinput hchunks hnormal (.inl rfl)

/-- Behind the inserted newline there is no other. -/
theorem step_ended (h : s.Ended) (hc : s.count = n) : (step s).count = n ∧ (step s).Ended := by
  rw [count] at hc
  cases h with
  | returned hrest hpoint =>
    have hstep : step s = s := by rw [step, hpoint]
    rw [hstep]
    exact ⟨hc, .returned hrest hpoint⟩
  | idle hrest hstate hpoint =>
    rcases hpoint with hpoint | hpoint
    · have hstep : step s = s.goto (.recycle none) := by
        rw [step, hpoint]
        rw [top_normal (by rw [hstate]; rfl), get_of_rest hrest]
      rw [hpoint] at hc
      rw [hstep]
      exact ⟨hc, .idle hrest hstate (.inr rfl)⟩
    · have hstep : step s = s.goto .returned := by
        rw [step, hpoint]
        exact if_pos hstate
      rw [hpoint] at hc
      rw [hstep]
      exact ⟨hc, .returned hrest rfl⟩
  | owed hinput hchunks hstate hpoint =>
    rcases hpoint with hpoint | hpoint
    · have hget : s.get = (some '\n', { s with input := [] }) := by rw [Scrubber.get, hinput]
      have hstep : step s = { s with input := [] }.goto (.recycle (some '\n')) := by
        have hturn : step s = top s := by rw [step, hpoint]
        rw [hturn, top_normal hstate, hget]
      have hrest : { s with input := [] }.rest = [] := by
        rw [rest, hchunks]
        rfl
      have hone : s.rest = '\n' :: { s with input := [] }.rest := by
        rw [rest, hinput]
        rfl
      rw [hpoint] at hc
      rw [hstep]
      exact ⟨(kept_of_rest hone).symm.trans hc, .read hrest hstate rfl⟩
    · have hstep : step s = s := by rw [step, hpoint]
      rw [hstep]
      exact ⟨hc, .owed hinput hchunks hstate (.inr hpoint)⟩
  | read hrest hstate hpoint =>
    have hstep : step s = newline '\n' s := by
      rw [step, hpoint]
      rfl
    rw [hpoint] at hc
    rw [hstep]
    simp only [newline]
    split
    next => exact putTop_ended rfl (.inl hrest) hc
    next hadd =>
      obtain ⟨hinput, hchunks⟩ := input_of_rest hrest
      refine putTop_ended rfl (.inr ⟨?_, hchunks⟩) ((congrArg (· + 1) (kept_rolled hadd)).trans hc)
      exact congrArg ('\n' :: ·) hinput

theorem Scrubber.Leaves.step (h : Leaves n s) (hk : s.KeepsLines) : Leaves n (step s) := by
  rcases h.counts with hc | ⟨hc, hended⟩
  · exact step_leaves h.formed hk hc
  · exact ⟨(step_leaves h.formed hk rfl).formed, .inr (step_ended hended hc)⟩

/-- A call goes on with the input that is saved, which can be the newline put back. -/
theorem Scrubber.Leaves.call (h : Leaves n s) (hp : s.point = .returned) (tolen : Nat) :
    Leaves n (call tolen s) := by
  obtain ⟨⟨hr, -⟩, hcount⟩ := h
  have hsent : lines (s.sent ++ s.buffer) + lines [] + s.addNewlines + lines s.rest = s.kept := by
    rw [lines_append]
    rfl
  have hkept : s.count = s.kept := by
    rw [Scrubber.count, hp]
    rfl
  rw [hkept, ← hsent] at hcount
  cases hi : s.input with
  | cons ch input =>
    simp only [Scrub.call, hi]
    refine ⟨⟨hr, trivial⟩, ?_⟩
    rw [rest, hi] at hcount
    rcases hcount with hc | ⟨hc, hended⟩
    · exact .inl hc
    · refine .inr ⟨hc, ?_⟩
      cases hended with
      | returned hrest => cases (input_of_rest hrest).1.symm.trans hi
      | idle hrest => cases (input_of_rest hrest).1.symm.trans hi
      | owed hinput hchunks hstate => exact .owed (hi.symm.trans hinput) hchunks hstate (.inl rfl)
      | read hrest => cases (input_of_rest hrest).1.symm.trans hi
  | nil =>
    cases hchunks : s.chunks with
    | cons chunk chunks =>
      simp only [Scrub.call, hi, hchunks]
      refine ⟨⟨hr, trivial⟩, ?_⟩
      rw [rest, hi, hchunks] at hcount
      rcases hcount with hc | ⟨hc, hended⟩
      · exact .inl hc
      · cases hended with
        | returned hrest => cases (input_of_rest hrest).2.symm.trans hchunks
        | idle hrest => cases (input_of_rest hrest).2.symm.trans hchunks
        | owed _ hnone => cases hnone.symm.trans hchunks
        | read hrest => cases (input_of_rest hrest).2.symm.trans hchunks
    | nil =>
      have hrest : s.rest = [] := by
        rw [rest, hi, hchunks]
        rfl
      simp only [Scrub.call, hi, hchunks]
      refine ⟨⟨hr, ?_⟩, ?_⟩
      · rw [hp]
        trivial
      · rw [rest, hi, hchunks] at hcount
        simp only [Scrubber.count, hp]
        rcases hcount with hc | ⟨hc, -⟩
        · exact .inl hc
        · exact .inr ⟨hc, .returned rfl rfl⟩

/-- The scrubber before its first call for a text, as `app_push` leaves it. -/
structure Opened (text : Text) (s : Scrubber) : Prop where
  point : s.point = .returned
  state : s.state = .lineStart
  addNewlines : s.addNewlines = 0
  input : s.input = []
  chunks : s.chunks.flatMap Chunk.text = text
  sent : s.sent = []
  buffer : s.buffer = []

inductive Moves : Scrubber → Scrubber → Prop
  | step (s : Scrubber) : s.point ≠ .returned → Moves s (step s)
  | call (s : Scrubber) (tolen : Nat) : s.point = .returned → Moves s (call tolen s)

/-- What the calls come to that scrub a text, with steps that are taken where `ok` holds. -/
inductive Reached (ok : Scrubber → Prop) (text : Text) : Scrubber → Prop
  | opened {s : Scrubber} : Opened text s → Reached ok text s
  | moved {s t : Scrubber} : Reached ok text s → ok s → Moves s t → Reached ok text t

/-- What is not consumed. -/
def Scrubber.unread (s : Scrubber) : Text := s.point.held ++ s.rest

/-- The newlines put out and those pending are the ones that are consumed, or one more at the end of
the file, which can be put back. -/
def LinesCounted (text : Text) (s : Scrubber) : Prop :=
  lines (s.sent ++ s.buffer) + s.addNewlines + lines s.unread = lines text ∨
    lines (s.sent ++ s.buffer) + s.addNewlines + lines s.unread = lines text + 1 ∧
      s.chunks = [] ∧ (s.unread = [] ∨ s.unread = ['\n'])

theorem Reached.leaves (h : Reached KeepsLines text s) : Leaves (lines text) s := by
  induction h with
  | opened h =>
    refine ⟨⟨resumes_of_normal ?_, ?_⟩, .inl ?_⟩
    · rw [h.state]
      rfl
    · rw [h.point]
      trivial
    · rw [count, kept, rest, h.point, h.sent, h.buffer, h.addNewlines, h.input, h.chunks]
      simp [Point.held]
  | moved _ hok hmoves ih =>
    cases hmoves with
    | step _ => exact ih.step hok
    | call tolen hp => exact ih.call hp tolen

instance (s : Scrubber) : Decidable s.KeepsLines :=
  decidable_of_iff
    ((s.point = .recycle (some '\'') → s.state ≠ .symbolWhite →
        s.rest.head? ≠ some '\n' ∧ s.rest.take 2 ≠ ['\\', '\n']) ∧
      (s.point = .cppBlanks '#' → s.rest = [] →
        s.state = .lineStart ∨ s.tolen ≤ s.buffer.length + 1))
    ⟨fun h => ⟨h.1, h.2⟩, fun h => ⟨h.constant, h.comment⟩⟩

instance (text : Text) (s : Scrubber) : Decidable (LinesCounted text s) :=
  inferInstanceAs (Decidable (_ ∨ _))

theorem Reached.steps {ok : Scrubber → Prop} (h : Reached ok text s) (k : Nat)
    (hok : ∀ i < k, ok (step^[i] s) ∧ (step^[i] s).point ≠ .returned) :
    Reached ok text (step^[k] s) := by
  induction k with
  | zero => exact h
  | succ k ih =>
    obtain ⟨hstep, hpoint⟩ := hok k (Nat.lt_succ_self k)
    rw [Function.iterate_succ_apply']
    exact .moved (ih fun i hi => hok i (Nat.lt_succ_of_lt hi)) hstep (.step _ hpoint)

theorem Scrubber.Ended.unread (h : s.Ended) :
    s.chunks = [] ∧ (s.unread = [] ∨ s.unread = ['\n']) := by
  cases h with
  | returned hrest hpoint =>
    refine ⟨(input_of_rest hrest).2, .inl ?_⟩
    rw [Scrubber.unread, hpoint, hrest]
    rfl
  | idle hrest _ hpoint =>
    refine ⟨(input_of_rest hrest).2, .inl ?_⟩
    rcases hpoint with hpoint | hpoint
    all_goals
      rw [Scrubber.unread, hpoint, hrest]
      rfl
  | owed hinput hchunks _ hpoint =>
    refine ⟨hchunks, .inr ?_⟩
    rcases hpoint with hpoint | hpoint
    all_goals
      rw [Scrubber.unread, rest, hpoint, hinput, hchunks]
      rfl
  | read hrest _ hpoint =>
    refine ⟨(input_of_rest hrest).2, .inr ?_⟩
    rw [Scrubber.unread, hpoint, hrest]
    rfl

/-- No newline is lost or added but one at the end of the file. -/
theorem newlines_counted (h : Reached KeepsLines text s) : LinesCounted text s := by
  have hcount : s.count = lines (s.sent ++ s.buffer) + s.addNewlines + lines s.unread := by
    rw [Scrubber.unread, lines_append, lines_append, count, kept]
    omega
  rcases h.leaves.counts with hc | ⟨hc, hended⟩
  · exact .inl (hcount.symm.trans hc)
  · exact .inr ⟨hcount.symm.trans hc, hended.unread⟩

/-- A scrubber that gets a text at once. -/
def fresh (first : Char) (text : Text) : Scrubber where
  point := .returned
  state := .lineStart
  oldState := .lineStart
  outString := []
  quotechar := '\x00'
  addNewlines := 0
  input := []
  chunks := [⟨first, text⟩]
  sent := []
  buffer := []
  tolen := 0
  warnings := []

theorem reached_fresh (ok : Scrubber → Prop) (first : Char) (text : Text)
    (h : ok (fresh first text)) :
    Reached ok (first :: text) (call 100 (fresh first text)) := by
  refine .moved (.opened ⟨rfl, rfl, rfl, rfl, ?_, rfl, rfl⟩) h (.call _ 100 rfl)
  simp [fresh, Chunk.text]

/-- A comment over two lines, and an end of the file in the last line. -/
theorem newlines_counted_comment :
    LinesCounted ('/' :: "*\n*/\nnop".toList)
      (step^[15] (call 100 (fresh '/' "*\n*/\nnop".toList))) :=
  newlines_counted ((reached_fresh _ _ _ (by decide)).steps 15 (by decide))

/-- `.byte '` at the end of a line. -/
theorem quoted_newline_lost :
    ¬ ∀ (text : Text) (s : Scrubber), Reached (fun _ => True) text s → LinesCounted text s := by
  intro h
  have hcalled := reached_fresh (fun _ => True) '.' "byte '\n\n".toList trivial
  have hreached := hcalled.steps 7 (by decide)
  have hcounted := h _ _ hreached
  revert hcounted
  decide

end FusionBinutils.Gas.Scrub
