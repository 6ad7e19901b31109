import ClassAudit.Assembly.Pool
import ClassAudit.ClassFile.Cursor

/-! # What readers consume

    `Reads offset r bytes a` says that at `offset` the reader `r` takes exactly `bytes` from the
    front of whatever follows them, and gives `a`. The relation is closed under the ways in which
    readers are put together, so that a reader of a whole construct is followed part by part:

    - `Reads.bind` splits the bytes of two readers in a row;
    - `ReadsEach` splits the bytes of one reader that runs again and again, either as often as a
      number says (`ReadsEach.table`) or until no byte is left (`ReadsEach.untilEnd`).

    Numbers are read back from the bytes that an assembler writes for them.
-/

namespace ClassAudit

variable {n offset : Nat}

@[simp] theorem Assembly.length_u2 (v : Int) : (Assembly.u2 v).length = 2 := rfl

@[simp] theorem Assembly.length_u4 (v : Int) : (Assembly.u4 v).length = 4 := rfl

theorem Assembly.toNat_byte (h : n < 256) : (Assembly.byte n).toNat = n := by
  rw [Assembly.byte, UInt8.toNat_ofNat']
  omega

namespace Reader

variable {α β : Type}
variable {r : Reader α} {f : α → Reader β} {a : α} {b : β} {as : List α}

/-- At `offset`, the reader takes exactly `bytes` and gives `a`, whatever comes after. -/
def Reads (offset : Nat) (r : Reader α) (bytes : List UInt8) (a : α) : Prop :=
  ∀ rest, r ⟨offset, bytes ++ rest⟩ = .ok (a, ⟨offset + bytes.length, rest⟩)

namespace Reads

/-! ### Composition -/

theorem pure (offset : Nat) (a : α) : Reads offset (Pure.pure a) [] a := by
  intro rest
  rfl

theorem bind {bytes bytes' : List UInt8} (hr : Reads offset r bytes a)
    (hf : Reads (offset + bytes.length) (f a) bytes' b) :
    Reads offset (r >>= f) (bytes ++ bytes') b := by
  intro rest
  show (r ⟨offset, bytes ++ bytes' ++ rest⟩ >>= fun x => f x.1 x.2) = _
  rw [List.append_assoc, hr]
  show f a ⟨offset + bytes.length, bytes' ++ rest⟩ = _
  rw [hf, List.length_append, Nat.add_assoc]

/-- A reader whose last step takes no byte. -/
theorem bind_nil {bytes : List UInt8} (hr : Reads offset r bytes a)
    (hf : Reads (offset + bytes.length) (f a) [] b) : Reads offset (r >>= f) bytes b := by
  have h := hr.bind hf
  rwa [List.append_nil] at h

theorem map {bytes : List UInt8} (f : α → β) (hr : Reads offset r bytes a) :
    Reads offset (r >>= fun x => Pure.pure (f x)) bytes (f a) :=
  hr.bind_nil (pure _ _)

theorem lift (offset : Nat) {e : Except Malformed α} (h : e = .ok a) :
    Reads offset (liftM e : Reader α) [] a := by
  intro rest
  subst h
  rfl

theorem lift_bind {e : Except Malformed α} {bytes : List UInt8} (h : e = .ok a)
    (hf : Reads offset (f a) bytes b) : Reads offset ((liftM e : Reader α) >>= f) bytes b :=
  (lift offset h).bind hf

theorem inside {bytes : List UInt8} (part : FilePart) (h : Reads offset r bytes a) :
    Reads offset (Reader.inside part r) bytes a := by
  intro rest
  show part.locate (r ⟨offset, bytes ++ rest⟩) = _
  rw [h]
  rfl

theorem on {bytes : List UInt8} (h : Reads 0 r bytes a) : r.on bytes = .ok a := by
  have h := h []
  rw [List.append_nil] at h
  unfold Reader.on
  rw [h]
  rfl

/-! ### Bytes and numbers -/

theorem offset_eq (n : Nat) : Reads n Reader.offset [] n := by
  intro rest
  rfl

theorem u1 (offset : Nat) (b : UInt8) : Reads offset Reader.u1 [b] b := by
  intro rest
  rfl

theorem u2_mod (offset : Nat) (v : Int) :
    Reads offset Reader.u2 (Assembly.u2 v) (v % 65536).toNat := by
  intro rest
  simp only [Assembly.u2, Assembly.byte, Reader.u2, List.cons_append, List.nil_append,
    UInt8.toNat_ofNat', List.length_cons, List.length_nil]
  congr 2
  omega

theorem u2 (offset : Nat) (h : n < 65536) : Reads offset Reader.u2 (Assembly.u2 n) n := by
  have h' := u2_mod offset n
  rwa [show ((n : Int) % 65536).toNat = n by omega] at h'

theorem u2_int (offset : Nat) {v : Int} (h : 0 ≤ v) (h' : v < 65536) :
    Reads offset Reader.u2 (Assembly.u2 v) v.toNat := by
  have h'' := u2_mod offset v
  rwa [Int.emod_eq_of_lt h h'] at h''

theorem u4_mod (offset : Nat) (v : Int) :
    Reads offset Reader.u4 (Assembly.u4 v) (v % 4294967296).toNat := by
  intro rest
  simp only [Assembly.u4, Assembly.u2, Assembly.byte, Reader.u4, List.cons_append,
    List.nil_append, UInt8.toNat_ofNat', List.length_cons, List.length_nil]
  congr 2
  omega

theorem u4 (offset : Nat) (h : n < 4294967296) : Reads offset Reader.u4 (Assembly.u4 n) n := by
  have h' := u4_mod offset n
  rwa [show ((n : Int) % 4294967296).toNat = n by omega] at h'

theorem s4 (offset : Nat) {v : Int} (h : -2147483648 ≤ v) (h' : v < 2147483648) :
    Reads offset Reader.s4 (Assembly.u4 v) v := by
  have hread := (u4_mod offset v).map fun n : Nat => (n : Int).bmod 0x100000000
  have hv : (((v % 4294967296).toNat : Nat) : Int).bmod 0x100000000 = v := by
    rw [Int.bmod_def]
    omega
  rwa [hv] at hread

theorem bytes (offset : Nat) (bs : List UInt8) : Reads offset (Reader.bytes bs.length) bs bs := by
  intro rest
  simp [Reader.bytes]

theorem skip (offset : Nat) (bs : List UInt8) : Reads offset (Reader.skip bs.length) bs () :=
  (bytes offset bs).map fun _ => ()

theorem skip_of_length (offset : Nat) {bs : List UInt8} (h : bs.length = n) :
    Reads offset (Reader.skip n) bs () := by
  subst h
  exact skip offset bs

theorem skip_pure (offset : Nat) {bs : List UInt8} (h : bs.length = n) (a : α) :
    Reads offset (do Reader.skip n; Pure.pure a) bs a :=
  (skip_of_length offset h).bind_nil (pure _ a)

end Reads

/-! ### Repetition -/

/-- From `offset` on, the reader takes the bytes piece by piece and gives the list piece by
    piece. -/
inductive ReadsEach (r : Reader α) : Nat → List UInt8 → List α → Prop where
  | nil (offset : Nat) : ReadsEach r offset [] []
  | cons {offset : Nat} {bytes bytes' : List UInt8} {a : α} {as : List α} :
      Reads offset r bytes a → ReadsEach r (offset + bytes.length) bytes' as →
      ReadsEach r offset (bytes ++ bytes') (a :: as)

namespace ReadsEach

theorem append {bytes bytes' : List UInt8} {as' : List α} (h : ReadsEach r offset bytes as)
    (h' : ReadsEach r (offset + bytes.length) bytes' as') :
    ReadsEach r offset (bytes ++ bytes') (as ++ as') := by
  induction h with
  | nil offset => exact h'
  | cons hhead _ ih =>
    rw [List.append_assoc, List.cons_append]
    refine .cons hhead (ih ?_)
    rwa [List.length_append, ← Nat.add_assoc] at h'

/-- Pieces that do not depend on where they stand. -/
theorem flatMap {γ : Type} {write : γ → List UInt8} {view : γ → α} {xs : List γ}
    (h : ∀ x ∈ xs, ∀ offset, Reads offset r (write x) (view x)) (offset : Nat) :
    ReadsEach r offset (xs.flatMap write) (xs.map view) := by
  induction xs generalizing offset with
  | nil => exact .nil offset
  | cons x xs ih =>
    rw [List.flatMap_cons]
    exact .cons (h x List.mem_cons_self offset) (ih (fun y hy => h y (List.mem_cons_of_mem x hy)) _)

theorem times_go {bytes : List UInt8} (h : ReadsEach r offset bytes as) (done : List α) :
    Reads offset (times.go r as.length done) bytes (done.reverse ++ as) := by
  induction h generalizing done with
  | nil offset =>
    rw [List.append_nil]
    exact Reads.pure offset done.reverse
  | @cons offset bytes bytes' a as hhead _ ih =>
    have htail := ih (a :: done)
    rw [List.reverse_cons, List.append_assoc] at htail
    exact hhead.bind (f := fun x => times.go r as.length (x :: done)) htail

theorem times {bytes : List UInt8} (h : ReadsEach r offset bytes as) :
    Reads offset (Reader.times as.length r) bytes as :=
  h.times_go []

theorem table {bytes : List UInt8} (h : ReadsEach r (offset + 2) bytes as)
    (hlen : as.length < 65536) :
    Reads offset (Reader.table r) (Assembly.u2 as.length ++ bytes) as :=
  (Reads.u2 offset hlen).bind h.times

theorem single {bytes : List UInt8} (h : Reads offset r bytes a) :
    ReadsEach r offset bytes [a] := by
  have hcons := cons h (.nil _)
  rwa [List.append_nil] at hcons

/-- The loop of `untilEnd` stops where the bytes do. A piece without bytes would be read for ever,
    so the reader must not accept one. -/
theorem untilEnd_go {bytes : List UInt8} (h : ReadsEach r offset bytes as)
    (hpos : ∀ offset a, ¬ Reads offset r [] a) :
    ∀ (fuel : Nat) (done : List α), bytes.length ≤ fuel →
      untilEnd.go r fuel done ⟨offset, bytes⟩ =
        .ok (done.reverse ++ as, ⟨offset + bytes.length, []⟩) := by
  induction h with
  | nil offset =>
    intro fuel done _
    rw [List.append_nil]
    cases fuel with
    | zero => rfl
    | succ fuel => rfl
  | @cons offset bytes bytes' a as hhead _ ih =>
    intro fuel done hfuel
    -- The first piece has a byte, so that there was fuel for it and less is needed now.
    have hne : bytes ≠ [] := fun hnil => hpos offset a (hnil ▸ hhead)
    have hlen : 0 < bytes.length := List.length_pos_iff.mpr hne
    rw [List.length_append] at hfuel
    cases fuel with
    | zero => omega
    | succ fuel =>
      have hcons : (bytes ++ bytes').isEmpty = false := by simp [hne]
      show (if (bytes ++ bytes').isEmpty then _ else _ : Reader (List α)) _ = _
      rw [hcons]
      show (r ⟨offset, bytes ++ bytes'⟩ >>= fun x => untilEnd.go r fuel (x.1 :: done) x.2) = _
      rw [hhead]
      show untilEnd.go r fuel (a :: done) ⟨offset + bytes.length, bytes'⟩ = _
      rw [ih fuel (a :: done) (by omega)]
      simp [Nat.add_assoc]

theorem untilEnd {bytes : List UInt8} (h : ReadsEach r 0 bytes as)
    (hpos : ∀ offset a, ¬ Reads offset r [] a) : (Reader.untilEnd r).on bytes = .ok as := by
  unfold Reader.on
  show ((untilEnd.go r bytes.length [] ⟨0, bytes⟩).map Prod.fst) = _
  rw [h.untilEnd_go hpos bytes.length [] (Nat.le_refl _)]
  rfl

end ReadsEach

end Reader

end ClassAudit
