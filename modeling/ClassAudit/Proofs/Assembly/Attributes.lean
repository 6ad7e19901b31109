import ClassAudit.Proofs.Assembly.Assembler
import ClassAudit.Proofs.Assembly.Description
import ClassAudit.Proofs.ClassFile.AttributeTable

/-! # Attribute tables, assembled and read

    A table of attributes is read by taking in one body after the other. What the whole table shows
    is therefore a run over its attributes, `Shows`, and a part of the table is a part of the run.
    Most attributes stand in a table once or not at all: `Optional`.
-/

namespace ClassAudit.Assembly

open Reader (Reads ReadsEach)

variable {σ : Type} {pool : ConstantPool}
variable {name : String} {body : List UInt8} {attrs : List (String × List UInt8)}

/-! ### Frames -/

/-- At most `limit` attributes, whose names and lengths can be written in front of their bodies. -/
structure Framed (limit : Nat) (attrs : List (String × List UInt8)) : Prop where
  count : attrs.length ≤ limit
  name : ∀ a ∈ attrs, Encodable a.1
  body : ∀ a ∈ attrs, a.2.length < 4294967296

namespace Framed

theorem nil (limit : Nat) : Framed limit [] :=
  ⟨Nat.zero_le _, by simp, by simp⟩

theorem single (hname : Encodable name) (hbody : body.length < 4294967296) :
    Framed 1 [(name, body)] :=
  ⟨Nat.le_refl _, by simpa using hname, by simpa using hbody⟩

theorem append {m n : Nat} {attrs' : List (String × List UInt8)} (h : Framed m attrs)
    (h' : Framed n attrs') : Framed (m + n) (attrs ++ attrs') := by
  refine ⟨?_, fun a ha => ?_, fun a ha => ?_⟩
  · rw [List.length_append]
    exact Nat.add_le_add h.count h'.count
  · rcases List.mem_append.mp ha with hmem | hmem
    · exact h.name a hmem
    · exact h'.name a hmem
  · rcases List.mem_append.mp ha with hmem | hmem
    · exact h.body a hmem
    · exact h'.body a hmem

end Framed

/-! ### Runs over attributes -/

/-- Taking in the attributes in order leads from `s` to `s'`. -/
def Shows (add : σ → String → List UInt8 → Except Malformed σ)
    (attrs : List (String × List UInt8)) (s s' : σ) : Prop :=
  attrs.foldlM (fun seen a => add seen a.1 a.2) s = .ok s'

namespace Shows

variable {add : σ → String → List UInt8 → Except Malformed σ}
  {attrs attrs' : List (String × List UInt8)} {s s' s'' : σ}

theorem single (h : add s name body = .ok s') : Shows add [(name, body)] s s' := by
  unfold Shows
  rw [List.foldlM_cons, h]
  rfl

theorem append (h : Shows add attrs s s') (h' : Shows add attrs' s' s'') :
    Shows add (attrs ++ attrs') s s'' := by
  unfold Shows at *
  rw [List.foldlM_append, h]
  exact h'

/-- A run begins with a step. -/
theorem cons_inv {a : String × List UInt8} (h : Shows add (a :: attrs) s s'') :
    ∃ s', add s a.1 a.2 = .ok s' ∧ Shows add attrs s' s'' := by
  unfold Shows at h
  rw [List.foldlM_cons] at h
  cases hadd : add s a.1 a.2 with
  | error e =>
    rw [hadd] at h
    nomatch h
  | ok s' =>
    rw [hadd] at h
    exact ⟨s', rfl, h⟩

theorem toOption (h : Shows add attrs s s') :
    attrs.foldlM (fun s a => (add s a.1 a.2).toOption) s = some s' := by
  induction attrs generalizing s with
  | nil =>
    cases h
    rfl
  | cons a attrs ih =>
    obtain ⟨next, hadd, hrest⟩ := h.cons_inv
    rw [List.foldlM_cons, hadd]
    exact ih hrest

end Shows

/-- There is no attribute, or there is one with this name and a body as described. -/
inductive Optional (name : String) (absent : Prop) (body : List UInt8 → Prop) :
    List (String × List UInt8) → Prop where
  | none : absent → Optional name absent body []
  | one {b : List UInt8} : body b → Optional name absent body [(name, b)]

theorem Optional.shows {add : σ → String → List UInt8 → Except Malformed σ} {s s' : σ}
    {absent : Prop} {body : List UInt8 → Prop} (h : Optional name absent body attrs)
    (hnone : absent → s = s') (hone : ∀ b, body b → add s name b = .ok s') :
    Shows add attrs s s' := by
  cases h with
  | none habsent => exact congrArg Except.ok (hnone habsent)
  | one hb => exact .single (hone _ hb)

/-! ### Tables -/

def writeAttribute (a : String × List UInt8) : Assembler (List UInt8) :=
  return u2 (← Assembler.utf8 a.1) ++ u4 a.2.length ++ a.2

/-- The number of bytes of attributes with their names and lengths. -/
def framedSize (attrs : List (String × List UInt8)) : Nat :=
  (attrs.map fun a => 6 + a.2.length).sum

theorem framedSize_append (attrs attrs' : List (String × List UInt8)) :
    framedSize (attrs ++ attrs') = framedSize attrs + framedSize attrs' := by
  unfold framedSize
  rw [List.map_append, List.sum_append_nat]

theorem length_attributes (attrs : List (String × List UInt8)) (p : Pool) :
    (Assembler.attributes attrs p).1.length = 2 + framedSize attrs := by
  refine length_table (fun a _ p => ?_) p
  show (u2 _ ++ u4 a.2.length ++ a.2).length = _
  rw [List.length_append, List.length_append, length_u2, length_u4]

namespace Assembles

/-- Attributes are written as the rows of a table. -/
theorem attributes_go {limit : Nat} (h : Framed limit attrs) :
    Assembles pool (Assembler.each writeAttribute attrs) (Attribute.Rows pool attrs) := by
  induction attrs with
  | nil => exact .pure trivial .nil
  | cons a attrs ih =>
    have hattrs : Framed limit attrs :=
      ⟨Nat.le_of_succ_le h.count, fun b hb => h.name b (List.mem_cons_of_mem a hb),
        fun b hb => h.body b (List.mem_cons_of_mem a hb)⟩
    have hhead : Assembles pool (writeAttribute a) fun bytes =>
        ∃ slot : Nat, TextSlot pool a.1 slot ∧ bytes = u2 slot ++ u4 a.2.length ++ a.2 :=
      (utf8 (h.name a List.mem_cons_self)).map fun slot hslot => ⟨slot, hslot, rfl⟩
    refine hhead.bind fun bytes _ => (ih hattrs).map fun bytes' hrows => ?_
    rintro ⟨slot, hslot, rfl⟩
    rw [List.append_assoc, List.append_assoc]
    exact .cons hslot.lt hslot.utf8 (h.body a List.mem_cons_self) hrows

theorem attributes {limit : Nat} (h : Framed limit attrs) (hlimit : limit < 65536) :
    Assembles pool (Assembler.attributes attrs)
      fun bytes => ∀ (σ : Type) (add : σ → String → List UInt8 → Except Malformed σ) (s s' : σ)
        (offset : Nat), Shows add attrs s s' →
        Reads offset (Attribute.foldTable pool add s) bytes s' := by
  refine (attributes_go h).map fun bytes hrows σ add s s' offset hrun => ?_
  have hlen : attrs.length < 65536 := Nat.lt_of_le_of_lt h.count hlimit
  have hread := Attribute.yields_foldTable add ⟨hlen, _, hrows, rfl⟩ s
  rw [hrun.toOption] at hread
  exact hread offset

end Assembles

end ClassAudit.Assembly
