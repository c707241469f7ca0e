import Mathlib.Data.List.Basic
import Chicoree.Registryd.BlobHandlers

/-! # Uploads to S3

`upload` reads a body in parts with `io.ReadFull`, which answers `io.ErrUnexpectedEOF` where
the body ends inside a part, and where the reader itself breaks off with that error. -/

namespace Chicoree.Storage.S3

open List
open Registryd (Bytes)

/-! ## Readers -/

inductive ReadError where
  | eof
  | unexpectedEOF
  /-- It wraps one of the two. -/
  | wrapped
  | other
deriving DecidableEq

/-- `errors.Is(err, io.EOF) || errors.Is(err, io.ErrUnexpectedEOF)` -/
def ReadError.isEnd (e : ReadError) : Bool := decide (e ≠ .other)

/-- What the Reads of a body return while there is room for it, and what comes with the
error, which every later Read repeats. -/
structure Source where
  chunks : List Bytes
  last : Bytes
  ending : ReadError

def Source.body (r : Source) : Bytes := r.chunks.flatten ++ r.last

/-- The Reads of `io.ReadAtLeast`, into so much room. -/
def fill (last : Bytes) (ending : ReadError) :
    List Bytes → Nat → Bytes × Option ReadError × Source
  | chunks, 0 => ([], none, ⟨chunks, last, ending⟩)
  | [], room => (last.take room, if last.length ≤ room then some ending else none,
      ⟨[], last.drop room, ending⟩)
  | c :: chunks, room =>
    if c.length ≤ room then
      let (b, e, r) := fill last ending chunks (room - c.length)
      (c ++ b, e, r)
    else (c.take room, none, ⟨c.drop room :: chunks, last, ending⟩)

/-- `io.ReadFull` -/
def readFull (r : Source) (n : Nat) : Bytes × Option ReadError × Source :=
  let (b, e, r) := fill r.last r.ending r.chunks n
  if n ≤ b.length then (b, none, r)
  else if b ≠ [] ∧ e = some .eof then (b, some .unexpectedEOF, r)
  else (b, e, r)

theorem fill_spec (last : Bytes) (ending : ReadError) (chunks : List Bytes) (n : Nat) :
    ∃ e r, fill last ending chunks n = ((chunks.flatten ++ last).take n, e, r) ∧
      ((chunks.flatten ++ last).length < n → e = some ending) ∧
      r.body = (chunks.flatten ++ last).drop n ∧ r.ending = ending := by
  induction chunks generalizing n with
  | nil =>
    cases n with
    | zero => exact ⟨_, _, rfl, fun h => absurd h (Nat.not_lt_zero _), rfl, rfl⟩
    | succ n => exact ⟨_, _, rfl, fun h => if_pos (Nat.le_of_lt h), rfl, rfl⟩
  | cons c chunks ih =>
    cases n with
    | zero => exact ⟨_, _, rfl, fun h => absurd h (Nat.not_lt_zero _), rfl, rfl⟩
    | succ n =>
      simp only [fill]
      rw [flatten_cons, append_assoc, take_append, drop_append, length_append]
      by_cases hc : c.length ≤ n + 1
      · obtain ⟨e, r, heq, hend, hbody, hending⟩ := ih (n + 1 - c.length)
        rw [if_pos hc, heq, take_of_length_le hc, drop_of_length_le hc]
        exact ⟨e, r, rfl, fun h => hend (by omega), hbody, hending⟩
      · rw [if_neg hc, Nat.sub_eq_zero_of_le (by omega)]
        refine ⟨none, ⟨c.drop (n + 1) :: chunks, last, ending⟩, ?_, fun h => by omega, ?_, rfl⟩
        · simp
        · simp [Source.body]

theorem readFull_spec (r : Source) (n : Nat) : ∃ r', r'.body = r.body.drop n ∧
    r'.ending = r.ending ∧ readFull r n =
      if n ≤ r.body.length then (r.body.take n, none, r')
      else (r.body, some (if r.body ≠ [] ∧ r.ending = .eof then .unexpectedEOF else r.ending),
        r') := by
  obtain ⟨e, r', heq, hend, hbody, hending⟩ := fill_spec r.last r.ending r.chunks n
  refine ⟨r', hbody, hending, ?_⟩
  change fill _ _ _ _ = (r.body.take n, _) at heq
  unfold readFull
  simp only [heq, length_take, Nat.le_min, Nat.le_refl, true_and]
  by_cases hfull : n ≤ r.body.length
  · rw [if_pos hfull, if_pos hfull]
  · obtain rfl := hend (by show r.body.length < n; omega)
    simp only [if_neg hfull, take_of_length_le (Nat.le_of_not_le hfull), Option.some.injEq]
    split <;> rfl

/-! ## The upload -/

/-- How a call ends that publishes; one whose answer is lost has been carried out. -/
inductive Call where
  | done
  | failed
  | lost
deriving DecidableEq

structure Client where
  putObject : Call
  /-- An upload opened by a call whose answer is lost stays open, with no object. -/
  createMultipartUpload : Bool
  uploadPart : Nat → Bool
  completeMultipartUpload : Call

inductive UploadError where
  | shortWrite
  | read
  | call

/-- What an upload answers, and what it leaves in the bucket. -/
structure Uploaded where
  result : Except UploadError Nat
  object : Option Bytes := none
  opened : Bool := false
  aborted : Bool := false

/-- An upload at its last call; `opened` is a multipart upload. -/
def Call.publish (c : Call) (whole : Bytes) (opened : Bool) : Uploaded where
  result := if c = .done then .ok whole.length else .error .call
  object := if c = .failed then none else some whole
  opened := opened
  aborted := opened && decide (c ≠ .done)

@[irreducible] def partSize : Nat := 8 <<< 20

theorem partSize_pos : 0 < partSize := by
  unfold partSize
  decide

theorem readFull_lt {r : Source} (h : (readFull r partSize).1 ≠ []) :
    (readFull r partSize).2.2.body.length < r.body.length := by
  obtain ⟨r', hbody, -, heq⟩ := readFull_spec r partSize
  have hpart := partSize_pos
  rw [heq] at h ⊢
  split at h <;> rename_i hfull
  · rw [if_pos hfull, hbody, length_drop]
    omega
  · rw [if_neg hfull, hbody, length_drop]
    have hpos : 0 < r.body.length := length_pos_iff.mpr h
    omega

/-- The loop over the parts: the bytes of all of them, or the error it is aborted for. -/
def uploadParts (s3 : Client) (num : Nat) (b : Bytes) (err : Option ReadError) (r : Source) :
    Except UploadError Bytes :=
  if !s3.uploadPart num then .error .call
  else if err.isSome then .ok b
  else if (readFull r partSize).2.1.any fun e => !e.isEnd then .error .read
  else if _hb : (readFull r partSize).1 = [] then .ok b
  else
    (uploadParts s3 (num + 1) (readFull r partSize).1 (readFull r partSize).2.1
      (readFull r partSize).2.2).map (b ++ ·)
termination_by r.body.length
decreasing_by exact readFull_lt _hb

def upload (s3 : Client) (r : Source) (size : Int) : Uploaded :=
  match readFull r partSize with
  | (b, some .eof, _) | (b, some .unexpectedEOF, _) =>
    -- the whole body fits in one part
    if 0 ≤ size ∧ (b.length : Int) ≠ size then { result := .error .shortWrite }
    else s3.putObject.publish b false
  | (_, some _, _) => { result := .error .read }
  | (b, none, r) =>
    if !s3.createMultipartUpload then { result := .error .call }
    else
      match uploadParts s3 0 b none r with
      | .error e => { result := .error e, opened := true, aborted := true }
      | .ok whole =>
        if 0 ≤ size ∧ (whole.length : Int) ≠ size then
          { result := .error .shortWrite, opened := true, aborted := true }
        else s3.completeMultipartUpload.publish whole true

/-! ## All or nothing -/

/-- The reader ends, or breaks off in a way that passes for the end. -/
def Ends (r : Source) : Prop :=
  r.ending = .eof ∨ r.ending = .unexpectedEOF ∨ (r.ending = .wrapped ∧ partSize ≤ r.body.length)

def Fits (r : Source) (size : Int) : Prop := 0 ≤ size → (r.body.length : Int) = size

def Client.last (s3 : Client) (n : Nat) : Call :=
  if n < partSize then s3.putObject else s3.completeMultipartUpload

/-- So many bytes are taken, in parts from a number on. -/
def Client.Takes (s3 : Client) (num n : Nat) : Prop :=
  ∀ j, j * partSize < n → s3.uploadPart (num + j) = true

/-- The upload comes to the call that publishes. -/
def Comes (s3 : Client) (r : Source) (size : Int) : Prop :=
  Ends r ∧ Fits r size ∧ (partSize ≤ r.body.length → s3.createMultipartUpload = true ∧
    s3.Takes 0 r.body.length)

structure AllOrNothing (s3 : Client) (r : Source) (size : Int) : Prop where
  whole : ∀ b, (upload s3 r size).object = some b → b = r.body ∧ Ends r ∧ Fits r size
  answered : ∀ n, (upload s3 r size).result = .ok n ↔
    n = r.body.length ∧ Comes s3 r size ∧ s3.last n = .done
  published : ∀ n, (upload s3 r size).result = .ok n → (upload s3 r size).object = some r.body
  aborted : ∀ e, (upload s3 r size).result = .error e →
    (upload s3 r size).aborted = (upload s3 r size).opened

theorem Client.takes_iff {s3 : Client} {num n : Nat} (hn : 0 < n) :
    s3.Takes num n ↔ s3.uploadPart num = true ∧ s3.Takes (num + 1) (n - partSize) := by
  constructor
  · intro h
    refine ⟨h 0 (by omega), fun j hj => ?_⟩
    rw [Nat.add_assoc, Nat.add_comm 1]
    refine h (j + 1) ?_
    rw [Nat.succ_mul]
    omega
  · intro h j hj
    cases j with
    | zero => exact h.1
    | succ j =>
      rw [Nat.succ_mul] at hj
      rw [Nat.add_comm j, ← Nat.add_assoc]
      exact h.2 j (by omega)

theorem Client.takes_zero (s3 : Client) (num : Nat) : s3.Takes num 0 :=
  fun _ hj => absurd hj (Nat.not_lt_zero _)

theorem uploadParts_some (s3 : Client) (num : Nat) (b : Bytes) (e : ReadError) (r : Source) :
    uploadParts s3 num b (some e) r = if s3.uploadPart num then .ok b else .error .call := by
  rw [uploadParts]
  cases s3.uploadPart num <;> rfl

theorem uploadParts_cases (s3 : Client) (num : Nat) (b : Bytes) (r : Source) :
    ((r.ending.isEnd = true ∧ s3.Takes num (partSize + r.body.length)) ∧
      uploadParts s3 num b none r = .ok (b ++ r.body)) ∨
    (¬(r.ending.isEnd = true ∧ s3.Takes num (partSize + r.body.length)) ∧
      ∃ e, uploadParts s3 num b none r = .error e) := by
  have hpart := partSize_pos
  induction hn : r.body.length using Nat.strongRecOn generalizing num b r with
  | _ n ih =>
    subst hn
    obtain ⟨r', hbody, hending, heq⟩ := readFull_spec r partSize
    rw [Client.takes_iff (by omega), Nat.add_sub_cancel_left, uploadParts]
    cases hnum : s3.uploadPart num with
    | false => exact .inr ⟨by simp, _, rfl⟩
    | true =>
      by_cases hfull : partSize ≤ r.body.length
      · -- a full part, and the rest of the body
        have hne : r.body.take partSize ≠ [] := by
          rw [Ne, ← length_eq_zero_iff, length_take]
          omega
        have hlen : r.body.length = partSize + r'.body.length := by
          rw [hbody, length_drop]
          omega
        rw [heq, if_pos hfull]
        simp only [Bool.not_true, Bool.false_eq_true, if_false, Option.isSome_none,
          Option.any_none, dif_neg hne, true_and]
        rcases ih _ (by omega) (num + 1) (r.body.take partSize) r' rfl with
          ⟨hall, hok⟩ | ⟨hsome, e, herr⟩
        · refine .inl ⟨by rwa [hlen, ← hending], ?_⟩
          rw [hok, hbody, take_append_drop]
          rfl
        · refine .inr ⟨by rwa [hlen, ← hending], e, ?_⟩
          rw [herr]
          rfl
      · -- the last part
        rw [heq, if_neg hfull]
        cases hend : r.ending.isEnd with
        | false =>
          have hother : r.ending = .other := by simpa [ReadError.isEnd] using hend
          exact .inr ⟨by simp, .read, by simp [hother, ReadError.isEnd]⟩
        | true =>
          have hany : (if r.body ≠ [] ∧ r.ending = .eof then ReadError.unexpectedEOF
              else r.ending).isEnd = true := by
            split
            · rfl
            · exact hend
          simp only [Bool.not_true, Bool.false_eq_true, if_false, Option.isSome_none,
            Option.any_some, hany, true_and]
          by_cases hnil : r.body = []
          · refine .inl ⟨?_, by simp [hnil]⟩
            rw [hnil]
            exact s3.takes_zero _
          · rw [dif_neg hnil, uploadParts_some, Client.takes_iff (length_pos_iff.mpr hnil),
              Nat.sub_eq_zero_of_le (by omega)]
            cases hnext : s3.uploadPart (num + 1) with
            | true => exact .inl ⟨⟨rfl, s3.takes_zero _⟩, rfl⟩
            | false => exact .inr ⟨by simp, _, rfl⟩

theorem upload_cases (s3 : Client) (r : Source) (size : Int) : (Comes s3 r size ∧ upload s3 r size =
      (s3.last r.body.length).publish r.body (decide (partSize ≤ r.body.length))) ∨
    (¬Comes s3 r size ∧ ∃ e opened, upload s3 r size =
      { result := .error e, opened := opened, aborted := opened }) := by
  obtain ⟨r', hbody, hending, heq⟩ := readFull_spec r partSize
  unfold upload Comes Fits Client.last
  by_cases hfull : partSize ≤ r.body.length
  · rw [heq, if_pos hfull, if_neg (Nat.not_lt.mpr hfull), decide_eq_true hfull]
    have hlen : partSize + r'.body.length = r.body.length := by
      rw [hbody, length_drop]
      omega
    have hends : Ends r ↔ r.ending.isEnd = true := by
      unfold Ends
      cases r.ending <;> simp [hfull, ReadError.isEnd]
    have hparts := uploadParts_cases s3 0 (r.body.take partSize) r'
    rw [hbody, take_append_drop, ← hbody, hlen, hending, ← hends] at hparts
    dsimp only
    cases hcreate : s3.createMultipartUpload with
    | false => exact .inr ⟨fun h => Bool.noConfusion (h.2.2 hfull).1, _, _, rfl⟩
    | true =>
      rcases hparts with ⟨hall, hok⟩ | ⟨hsome, e, herr⟩
      · rw [hok]
        by_cases hsize : 0 ≤ size ∧ (r.body.length : Int) ≠ size
        · refine .inr ⟨fun h => hsize.2 (h.2.1 hsize.1), .shortWrite, true, ?_⟩
          simp [hsize]
        · refine .inl ⟨⟨hall.1, fun hpos => ?_, fun _ => ⟨rfl, hall.2⟩⟩, by simp [hsize]⟩
          by_contra hne
          exact hsize ⟨hpos, hne⟩
      · rw [herr]
        exact .inr ⟨fun h => hsome ⟨h.1, (h.2.2 hfull).2⟩, _, _, rfl⟩
  · rw [heq, if_neg hfull, if_pos (Nat.lt_of_not_le hfull), decide_eq_false hfull]
    have hends : Ends r ↔
        (if r.body ≠ [] ∧ r.ending = .eof then ReadError.unexpectedEOF else r.ending) = .eof ∨
          (if r.body ≠ [] ∧ r.ending = .eof then ReadError.unexpectedEOF else r.ending) =
            .unexpectedEOF := by
      unfold Ends
      have hpart : partSize ≠ 0 := Nat.ne_of_gt partSize_pos
      cases r.ending <;> by_cases hnil : r.body = [] <;> simp [hfull, hnil, hpart]
    rw [hends]
    generalize (if r.body ≠ [] ∧ r.ending = .eof then ReadError.unexpectedEOF else r.ending) = e
    cases e with
    | eof | unexpectedEOF =>
      by_cases hsize : 0 ≤ size ∧ (r.body.length : Int) ≠ size
      · refine .inr ⟨fun h => hsize.2 (h.2.1 hsize.1), .shortWrite, false, ?_⟩
        simp [hsize]
      · refine .inl ⟨⟨by simp, fun hpos => ?_, fun h => absurd h hfull⟩, by simp [hsize]⟩
        by_contra hne
        exact hsize ⟨hpos, hne⟩
    | wrapped | other => exact .inr ⟨fun h => by simp at h, _, _, rfl⟩

/-- Whatever an upload publishes is the whole body of a reader that ended or seemed to, and of
the size that was asked for; it answers with the length exactly where every call does; and it
aborts a multipart upload that it fails. -/
theorem upload_all_or_nothing (s3 : Client) (r : Source) (size : Int) : AllOrNothing s3 r size := by
  rcases upload_cases s3 r size with ⟨hcomes, hup⟩ | ⟨hnot, e, opened, hup⟩
  · have hanswered (n : Nat) : n = r.body.length ∧ Comes s3 r size ∧ s3.last n = .done ↔
        r.body.length = n ∧ s3.last r.body.length = .done := by
      constructor
      · rintro ⟨rfl, -, hdone⟩
        exact ⟨rfl, hdone⟩
      · rintro ⟨rfl, hdone⟩
        exact ⟨rfl, hcomes, hdone⟩
    constructor <;> simp only [hup, hanswered] <;>
      cases hlast : s3.last r.body.length <;> simp [Call.publish, hcomes.1, hcomes.2.1]
  · constructor <;> simp [hup, hnot]

end Chicoree.Storage.S3
