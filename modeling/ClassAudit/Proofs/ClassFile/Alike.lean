import Mathlib.Data.List.Forall2
import ClassAudit.Proofs.ClassFile.Reading

/-! # Byte strings that are alike

    A reader makes something of the bytes in front of it, or it fails. `Yields` says which of both
    it does on some bytes, whatever follows them, and two byte strings are `Alike` if it does the
    same on both. Readers that are put together find byte strings alike if their parts do, so that a
    change in one part of a file is followed to the whole.
-/

namespace ClassAudit

variable {bytes bytes' : List UInt8}

namespace Reader

variable {α β : Type}
variable {r : Reader α} {f : α → Reader β} {result : Option α}

/-- On the bytes, whatever follows them, the reader takes exactly these bytes and gives a value, or
    it fails. -/
def Yields (r : Reader α) (bytes : List UInt8) : Option α → Prop
  | some a => ∀ offset, Reads offset r bytes a
  | none => ∀ offset rest, ∃ e, r ⟨offset, bytes ++ rest⟩ = .error e

namespace Yields

theorem pure (a : α) : Yields (Pure.pure a) [] (some a) :=
  fun offset => Reads.pure offset a

theorem lift (e : Except Malformed α) : Yields (liftM e : Reader α) [] e.toOption := by
  cases e with
  | error e => exact fun _ _ => ⟨e, rfl⟩
  | ok a => exact fun offset => Reads.lift offset rfl

theorem bind_none (hr : Yields r bytes none) (f : α → Reader β) (bytes' : List UInt8) :
    Yields (r >>= f) (bytes ++ bytes') none := by
  intro offset rest
  obtain ⟨e, he⟩ := hr offset (bytes' ++ rest)
  refine ⟨e, ?_⟩
  show (r ⟨offset, bytes ++ bytes' ++ rest⟩ >>= fun x => f x.1 x.2) = _
  rw [List.append_assoc, he]
  rfl

theorem bind_some {a : α} {result : Option β} (hr : Yields r bytes (some a))
    (hf : Yields (f a) bytes' result) : Yields (r >>= f) (bytes ++ bytes') result := by
  cases result with
  | some b => exact fun offset => (hr offset).bind (hf _)
  | none =>
    intro offset rest
    obtain ⟨e, he⟩ := hf (offset + bytes.length) rest
    refine ⟨e, ?_⟩
    show (r ⟨offset, bytes ++ bytes' ++ rest⟩ >>= fun x => f x.1 x.2) = _
    rw [List.append_assoc, hr offset]
    exact he

theorem bind {g : α → Option β} (hr : Yields r bytes result) (hf : ∀ a, Yields (f a) bytes' (g a)) :
    Yields (r >>= f) (bytes ++ bytes') (result.bind g) := by
  cases result with
  | none => exact hr.bind_none f bytes'
  | some a => exact hr.bind_some (hf a)

theorem inside (part : FilePart) (hr : Yields r bytes result) :
    Yields (Reader.inside part r) bytes result := by
  cases result with
  | some a => exact fun offset => (hr offset).inside part
  | none =>
    intro offset rest
    obtain ⟨e, he⟩ := hr offset rest
    refine ⟨e.inside part, ?_⟩
    show part.locate (r ⟨offset, bytes ++ rest⟩) = _
    rw [he]
    rfl

/-- A reader on a byte string of its own, which it need not consume. -/
theorem on (h : Yields r bytes result) (rest : List UInt8) :
    (r.on (bytes ++ rest)).toOption = result := by
  unfold Reader.on
  cases result with
  | some a =>
    rw [h 0 rest]
    rfl
  | none =>
    obtain ⟨e, he⟩ := h 0 rest
    rw [he]
    rfl

theorem u2_of_length (h : bytes.length = 2) : ∃ n, Yields Reader.u2 bytes (some n) := by
  match bytes, h with
  | [b₁, b₀], _ => exact ⟨_, fun _ _ => rfl⟩

theorem u2 {n : Nat} (h : n < 65536) : Yields Reader.u2 (Assembly.u2 n) (some n) :=
  fun offset => Reads.u2 offset h

theorem u4 {n : Nat} (h : n < 4294967296) : Yields Reader.u4 (Assembly.u4 n) (some n) :=
  fun offset => Reads.u4 offset h

theorem bytes_length (bs : List UInt8) : Yields (Reader.bytes bs.length) bs (some bs) :=
  fun offset => Reads.bytes offset bs

end Yields

/-! ### Byte strings that are alike -/

/-- The reader makes the same of two byte strings, whatever follows them: it fails on both, or it
    takes exactly their bytes and gives the same value. -/
def Alike (r : Reader α) (bytes bytes' : List UInt8) : Prop :=
  ∃ result, Yields r bytes result ∧ Yields r bytes' result

namespace Alike

theorem of_yields (h : Yields r bytes result) : Alike r bytes bytes :=
  ⟨result, h, h⟩

theorem bind {bytes₁ bytes₂ bytes₁' bytes₂' : List UInt8} (hr : Alike r bytes₁ bytes₂)
    (hf : ∀ a, Alike (f a) bytes₁' bytes₂') :
    Alike (r >>= f) (bytes₁ ++ bytes₁') (bytes₂ ++ bytes₂') := by
  obtain ⟨result, h₁, h₂⟩ := hr
  cases result with
  | none => exact ⟨none, h₁.bind_none f _, h₂.bind_none f _⟩
  | some a =>
    obtain ⟨result', h₁', h₂'⟩ := hf a
    exact ⟨result', h₁.bind_some h₁', h₂.bind_some h₂'⟩

/-- The same bytes in front, which are known to be read. -/
theorem after {bytes₁ bytes₂ : List UInt8} {a : α} (hr : Yields r bytes (some a))
    (hf : Alike (f a) bytes₁ bytes₂) : Alike (r >>= f) (bytes ++ bytes₁) (bytes ++ bytes₂) := by
  obtain ⟨result, h₁, h₂⟩ := hf
  exact ⟨result, hr.bind_some h₁, hr.bind_some h₂⟩

theorem map (hr : Alike r bytes bytes') (f : α → β) :
    Alike (r >>= fun a => pure (f a)) bytes bytes' := by
  have h := hr.bind fun a => of_yields (Yields.pure (f a))
  rwa [List.append_nil, List.append_nil] at h

theorem inside (part : FilePart) (hr : Alike r bytes bytes') :
    Alike (Reader.inside part r) bytes bytes' := by
  obtain ⟨result, h, h'⟩ := hr
  exact ⟨result, h.inside part, h'.inside part⟩

theorem on (hr : Alike r bytes bytes') (rest rest' : List UInt8) :
    (r.on (bytes ++ rest)).toOption = (r.on (bytes' ++ rest')).toOption := by
  obtain ⟨result, h, h'⟩ := hr
  rw [h.on, h'.on]

theorem times_go {pieces pieces' : List (List UInt8)} (h : List.Forall₂ (Alike r) pieces pieces')
    (done : List α) : Alike (times.go r pieces.length done) pieces.flatten pieces'.flatten := by
  induction h generalizing done with
  | nil => exact of_yields (Yields.pure done.reverse)
  | cons hhead _ ih => exact hhead.bind fun a => ih (a :: done)

theorem table {pieces pieces' : List (List UInt8)} (h : List.Forall₂ (Alike r) pieces pieces')
    (hcount : pieces.length < 65536) :
    Alike (Reader.table r) (Assembly.u2 pieces.length ++ pieces.flatten)
      (Assembly.u2 pieces'.length ++ pieces'.flatten) := by
  obtain ⟨result, hrows, hrows'⟩ := times_go h []
  refine ⟨result, (Yields.u2 hcount).bind_some hrows, ?_⟩
  rw [← h.length_eq]
  exact (Yields.u2 hcount).bind_some hrows'

end Alike

end Reader

end ClassAudit
