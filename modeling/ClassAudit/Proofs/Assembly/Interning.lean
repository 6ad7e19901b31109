import Mathlib.Data.List.Forall2
import Mathlib.Data.List.Nodup
import ClassAudit.Proofs.Assembly.Pool
import ClassAudit.Proofs.ClassFile.Name
import ClassAudit.Proofs.ClassFile.PoolIndex

/-! # Slots that are asked for

    A pool is asked for constants one after the other, and gives a slot for each. Two requests get
    the same slot exactly if they are the same, and what is read of the pool has in every slot that
    was given the constant that was asked for.

    A constant that refers to others is not what was asked for by itself, but with the texts to
    which it leads. `Pool.Stands` says which request an entry stands for, and both tell each other:
    an entry has one slot, since a new one is only added if it was not there (`Pool.Distinct`), and
    a slot has one entry, since entries take slots one after the other (`Pool.Placed`). What stands
    for a request does so in every pool that grows from there.
-/

namespace ClassAudit.Assembly

open Reader (Reads)

/-! ### Requests -/

/-- What a pool is asked for. -/
inductive Request where
  | utf8 (text : String)
  | integer (value : Int)
  | long (value : Int)
  | classInfo (name : String)
  | string (text : String)
  | methodType (descriptor : String)
  | nameAndType (name descriptor : String)
  | member (kind : MemberKind) (owner name descriptor : String)
  | invokeDynamic (name descriptor : String)
  deriving DecidableEq

namespace Request

def slot : Request → Assembler Nat
  | utf8 text => Assembler.utf8 text
  | integer value => Assembler.integer value
  | long value => Assembler.long value
  | classInfo name => Assembler.classInfo name
  | string text => Assembler.string text
  | methodType descriptor => Assembler.methodType descriptor
  | nameAndType name descriptor => Assembler.nameAndType name descriptor
  | member kind owner name descriptor => Assembler.member kind owner name descriptor
  | invokeDynamic name descriptor => Assembler.invokeDynamic name descriptor

/-- The slots that a pool gives for requests one after the other. -/
def slots : List Request → Assembler (List Nat)
  | [] => return []
  | r :: rest => return (← r.slot) :: (← slots rest)

def texts : Request → List String
  | integer _ | long _ => []
  | utf8 text | classInfo text | string text | methodType text => [text]
  | nameAndType name descriptor | invokeDynamic name descriptor => [name, descriptor]
  | member _ owner name descriptor => [owner, name, descriptor]

/-- The kind of constant that is asked for. -/
def tag : Request → Tag
  | utf8 _ => .utf8
  | integer _ => .integer
  | long _ => .long
  | classInfo _ => .classInfo
  | string _ => .string
  | methodType _ => .methodType
  | nameAndType _ _ => .nameAndType
  | member .field _ _ _ => .fieldref
  | member .method _ _ _ => .methodref
  | member .interfaceMethod _ _ _ => .interfaceMethodref
  | invokeDynamic _ _ => .invokeDynamic

end Request

/-! ### Entries and slots -/

namespace Pool

variable {p q : Pool} {e e' : Entry} {s s' : Nat} {r r' : Request}

/-- No entry is in a pool twice. -/
def Distinct (p : Pool) : Prop :=
  (p.entries.map Prod.fst).Nodup

theorem Grows.distinct (h : p.Grows q) (hp : p.Distinct) : q.Distinct := by
  induction h with
  | refl => exact hp
  | @slot q e _ _ ih =>
    rcases slot_cases e q with ⟨s, -, heq⟩ | ⟨hnew, heq⟩
    · rw [heq]
      exact ih
    · rw [heq]
      exact List.nodup_cons.mpr ⟨hnew, ih⟩

/-- An entry stands for a request: it leads to the texts by the entries of the pool. -/
inductive Stands (p : Pool) : Entry → Request → Prop where
  | utf8 (text : String) : Stands p (.utf8 text) (.utf8 text)
  | integer (value : Int) : Stands p (.integer value) (.integer value)
  | long (value : Int) : Stands p (.long value) (.long value)
  | classInfo {name : String} {t : Nat} : (.utf8 name, t) ∈ p.entries →
      Stands p (.classInfo t) (.classInfo name)
  | string {text : String} {t : Nat} : (.utf8 text, t) ∈ p.entries →
      Stands p (.string t) (.string text)
  | methodType {descriptor : String} {t : Nat} : (.utf8 descriptor, t) ∈ p.entries →
      Stands p (.methodType t) (.methodType descriptor)
  | nameAndType {name descriptor : String} {t u : Nat} : (.utf8 name, t) ∈ p.entries →
      (.utf8 descriptor, u) ∈ p.entries →
      Stands p (.nameAndType t u) (.nameAndType name descriptor)
  | member {kind : MemberKind} {owner name descriptor : String} {e e' : Entry} {c n : Nat} :
      Stands p e (.classInfo owner) → (e, c) ∈ p.entries →
      Stands p e' (.nameAndType name descriptor) → (e', n) ∈ p.entries →
      Stands p (.member kind c n) (.member kind owner name descriptor)
  | invokeDynamic {name descriptor : String} {e : Entry} {n : Nat} :
      Stands p e (.nameAndType name descriptor) → (e, n) ∈ p.entries →
      Stands p (.invokeDynamic n) (.invokeDynamic name descriptor)

/-- A slot of a pool answers a request. -/
def Answers (p : Pool) (r : Request) (s : Nat) : Prop :=
  ∃ e, (e, s) ∈ p.entries ∧ p.Stands e r

theorem Stands.mono (h : p.Stands e r) (hgrow : p.Grows q) : q.Stands e r := by
  induction h with
  | utf8 text => exact .utf8 text
  | integer value => exact .integer value
  | long value => exact .long value
  | classInfo ht => exact .classInfo (hgrow.mem ht)
  | string ht => exact .string (hgrow.mem ht)
  | methodType ht => exact .methodType (hgrow.mem ht)
  | nameAndType ht hu => exact .nameAndType (hgrow.mem ht) (hgrow.mem hu)
  | member _ hc _ hn ihc ihn => exact .member ihc (hgrow.mem hc) ihn (hgrow.mem hn)
  | invokeDynamic _ hn ih => exact .invokeDynamic ih (hgrow.mem hn)

theorem Answers.mono (h : p.Answers r s) (hgrow : p.Grows q) : q.Answers r s := by
  obtain ⟨e, hmem, hstands⟩ := h
  exact ⟨e, hgrow.mem hmem, hstands.mono hgrow⟩

theorem Answers.mem_utf8 {text : String} (h : p.Answers (.utf8 text) s) :
    (.utf8 text, s) ∈ p.entries := by
  obtain ⟨e, hmem, hstands⟩ := h
  cases hstands
  exact hmem

/-! ### What a pool gives -/

/-- An assembler gives a slot for a request, and only interns entries for that. -/
structure Gives (p : Pool) (w : Assembler Nat) (r : Request) : Prop where
  grows : p.Grows (w p).2
  answers : (w p).2.Answers r (w p).1

namespace Gives

variable {w : Assembler Nat} {text name descriptor : String}

theorem bind {f : Nat → Assembler Nat} (hw : p.Gives w r)
    (hf : ∀ (q : Pool) (s : Nat), p.Grows q → q.Answers r s → q.Gives (f s) r') :
    p.Gives (w >>= f) r' :=
  have h := hf _ _ hw.grows hw.answers
  ⟨hw.grows.trans h.grows, h.answers⟩

theorem slot (he : e.Writable) (h : p.Stands e r) : p.Gives (Assembler.slot e) r :=
  have hgrow : p.Grows (Assembler.slot e p).2 := .slot e .refl he
  ⟨hgrow, e, mem_slot e p, h.mono hgrow⟩

theorem utf8 (h : Encodable text) (p : Pool) : p.Gives (Assembler.utf8 text) (.utf8 text) :=
  .slot h (.utf8 text)

theorem classInfo (h : Encodable name) (p : Pool) :
    p.Gives (Assembler.classInfo name) (.classInfo name) :=
  (utf8 h p).bind fun _ _ _ ht => .slot trivial (.classInfo ht.mem_utf8)

theorem nameAndType (hname : Encodable name) (hdescriptor : Encodable descriptor) (p : Pool) :
    p.Gives (Assembler.nameAndType name descriptor) (.nameAndType name descriptor) := by
  refine (utf8 hname p).bind fun q t _ ht => ?_
  refine (utf8 hdescriptor q).bind fun q' u hgrow hu => ?_
  exact .slot trivial (.nameAndType (ht.mono hgrow).mem_utf8 hu.mem_utf8)

end Gives

section Reading

variable (hp : p.Valid) (hnext : p.next ≤ 65535)
include hp

include hnext

end Reading

end Pool

/-! ### Requests on a new pool -/

end ClassAudit.Assembly
