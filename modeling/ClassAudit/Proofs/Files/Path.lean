import Mathlib.Data.List.Basic
import ClassAudit.Files.Path
import ClassAudit.Proofs.Text.Utf8

/-! # Names of paths

    A path is read as the list of its names, and a list of names is written as a path that is read
    back as the same names. A clean path keeps two dots only in front of all other names, so that
    cleaning it again changes nothing, and a path that is joined to another by a slash adds its
    names behind those of the clean path.
-/

namespace ClassAudit

variable {separator : UInt8} {bytes : List UInt8} {path : Path} {name : ByteString}
  {ns done : List ByteString} {absolute : Bool}

namespace ByteString

/-! ### Cutting at a separator -/

theorem splitBytes_eq_splitOn (separator : UInt8) (bytes : List UInt8) :
    splitBytes separator bytes = bytes.splitOn separator := by
  induction bytes with
  | nil => rfl
  | cons b bytes ih =>
    rw [splitBytes, ih, Text.splitOn_cons]
    by_cases hb : b = separator
    · simp [hb]
    · rw [if_neg hb, if_neg hb]
      split
      · rename_i hnil
        exact absurd hnil (List.splitOnP_ne_nil _ _)
      · rename_i part parts hparts
        rw [hparts]
        rfl

theorem not_mem_of_mem_splitBytes {part : List UInt8} (h : part ∈ splitBytes separator bytes) :
    separator ∉ part := by
  rw [splitBytes_eq_splitOn] at h
  exact Text.not_mem_of_mem_splitOn h

theorem subset_of_mem_splitBytes {part : List UInt8} (h : part ∈ splitBytes separator bytes) :
    part ⊆ bytes := by
  induction bytes generalizing part with
  | nil =>
    rw [splitBytes, List.mem_singleton] at h
    rw [h]
    exact List.nil_subset _
  | cons b bytes ih =>
    rw [splitBytes] at h
    split at h
    · rcases List.mem_cons.mp h with rfl | h
      · exact List.nil_subset _
      · exact List.subset_cons_of_subset b (ih h)
    · split at h
      · rw [List.mem_singleton] at h
        rw [h]
        exact List.cons_subset_cons b (List.nil_subset _)
      · rename_i first parts hparts
        rw [hparts] at ih
        rcases List.mem_cons.mp h with rfl | h
        · exact List.cons_subset_cons b (ih List.mem_cons_self)
        · exact List.subset_cons_of_subset b (ih (List.mem_cons_of_mem _ h))

/-- A text is cut into at most one part more than it has bytes. -/
theorem length_splitBytes_le (separator : UInt8) (bytes : List UInt8) :
    (splitBytes separator bytes).length ≤ bytes.length + 1 := by
  induction bytes with
  | nil => exact Nat.le_refl 1
  | cons b bytes ih =>
    rw [splitBytes, List.length_cons]
    split
    · rw [List.length_cons]
      omega
    · split
      · simp
      · rename_i first parts hparts
        rw [hparts, List.length_cons] at ih
        rw [List.length_cons]
        omega

/-- A text without the separator at its end makes the last part longer. -/
theorem splitBytes_append {tail : List UInt8} (htail : separator ∉ tail) (bytes : List UInt8) :
    ∃ before last, splitBytes separator bytes = before ++ [last] ∧
      splitBytes separator (bytes ++ tail) = before ++ [last ++ tail] := by
  induction bytes with
  | nil =>
    refine ⟨[], [], rfl, ?_⟩
    rw [splitBytes_eq_splitOn, List.splitOn, List.nil_append,
      List.splitOnP_eq_singleton fun b hb => ?_]
    · rfl
    · simpa using fun heq : b = separator => htail (heq ▸ hb)
  | cons b bytes ih =>
    obtain ⟨before, last, hbytes, happend⟩ := ih
    rw [List.cons_append, splitBytes, splitBytes, hbytes, happend]
    by_cases hb : b = separator
    · rw [if_pos hb, if_pos hb]
      exact ⟨[] :: before, last, rfl, rfl⟩
    · rw [if_neg hb, if_neg hb]
      cases before with
      | nil => exact ⟨[], b :: last, rfl, rfl⟩
      | cons first before => exact ⟨(b :: first) :: before, last, rfl, rfl⟩

end ByteString

namespace Path

open ByteString

/-! ### Names -/

/-- What can stand between two slashes. -/
def IsName (name : ByteString) : Prop :=
  name.bytes ≠ [] ∧ slash ∉ name.bytes

theorem isName_above : IsName above := by
  unfold IsName
  decide

theorem isName_of_mem_names (h : name ∈ path.names) : IsName name := by
  unfold names ByteString.split at h
  obtain ⟨hmem, hne⟩ := List.mem_filter.mp h
  obtain ⟨part, hpart, rfl⟩ := List.mem_map.mp hmem
  refine ⟨?_, not_mem_of_mem_splitBytes hpart⟩
  simpa [ByteString.isEmpty] using hne

theorem mem_names_iff (hname : name.bytes ≠ []) :
    name ∈ path.names ↔ name.bytes ∈ splitBytes slash path.bytes := by
  unfold names ByteString.split
  rw [List.mem_filter, List.mem_map]
  constructor
  · rintro ⟨⟨part, hpart, rfl⟩, -⟩
    exact hpart
  · intro h
    exact ⟨⟨name.bytes, h, rfl⟩, by simpa [ByteString.isEmpty] using hname⟩

theorem length_names_le (path : Path) : path.names.length ≤ path.length + 1 := by
  have hfilter := List.length_filter_le (fun name => !name.isEmpty) (path.split slash)
  have hsplit := length_splitBytes_le slash path.bytes
  rw [ByteString.split, List.length_map] at hfilter
  exact Nat.le_trans hfilter hsplit

/-- The names of a path have no bytes that the path has not. -/
theorem subset_of_mem_names (h : name ∈ path.names) : name.bytes ⊆ path.bytes := by
  have hne := (isName_of_mem_names h).1
  exact subset_of_mem_splitBytes ((mem_names_iff hne).mp h)

theorem names_append_slash (path rest : Path) :
    names ⟨path.bytes ++ slash :: rest.bytes⟩ = path.names ++ rest.names := by
  unfold names ByteString.split
  rw [splitBytes_eq_splitOn, splitBytes_eq_splitOn, splitBytes_eq_splitOn, List.splitOn,
    List.splitOnP_append_cons _ _ (by simp), List.map_append, List.filter_append]
  rfl

theorem names_intercalate (h : ∀ name ∈ ns, IsName name) :
    names (ByteString.intercalate slash ns) = ns := by
  by_cases hns : ns = []
  · subst hns
    rfl
  · unfold names ByteString.split ByteString.intercalate
    rw [splitBytes_eq_splitOn, List.splitOn_intercalate]
    · rw [List.map_map, List.filter_eq_self.mpr]
      · exact List.map_id' _
      · intro name hname
        obtain ⟨name, hmem, rfl⟩ := List.mem_map.mp hname
        simpa [ByteString.isEmpty] using (h name hmem).1
    · intro part hpart
      obtain ⟨name, hmem, rfl⟩ := List.mem_map.mp hpart
      exact (h name hmem).2
    · simpa using hns

theorem names_slash_cons (path : Path) : names ⟨slash :: path.bytes⟩ = path.names :=
  names_append_slash ⟨[]⟩ path

theorem names_ofNames (h : ∀ name ∈ ns, IsName name) : (ofNames absolute ns).names = ns := by
  unfold ofNames
  cases absolute with
  | false => simpa using names_intercalate h
  | true => simpa [names_slash_cons] using names_intercalate h

theorem not_mem_ofNames {b : UInt8} (hb : b ≠ slash) (h : ∀ name ∈ ns, b ∉ name.bytes) :
    b ∉ (ofNames absolute ns).bytes := by
  have hrelative : b ∉ (ByteString.intercalate slash ns).bytes := by
    induction ns with
    | nil => exact List.not_mem_nil
    | cons name ns ih =>
      obtain ⟨hname, hns⟩ := List.forall_mem_cons.mp h
      cases ns with
      | nil => simpa [ByteString.intercalate] using hname
      | cons next ns =>
        have hrest := ih hns
        simp only [ByteString.intercalate, List.map_cons, List.intercalate_cons_cons,
          List.mem_append, List.mem_singleton] at hrest ⊢
        tauto
  cases absolute with
  | false => exact hrelative
  | true => exact fun hmem => hrelative ((List.mem_cons.mp hmem).resolve_left hb)

theorem isAbsolute_ofNames (h : ∀ name ∈ ns, IsName name) :
    (ofNames absolute ns).isAbsolute = absolute := by
  cases absolute with
  | true => rfl
  | false =>
    cases ns with
    | nil => rfl
    | cons name ns =>
      obtain ⟨hne, hslash⟩ := h name List.mem_cons_self
      obtain ⟨b, bytes, hbytes⟩ := List.exists_cons_of_ne_nil hne
      have hb : b ≠ slash := by
        rintro rfl
        exact hslash (by simp [hbytes])
      have hhead : (ofNames false (name :: ns)).bytes.head? = some b := by
        cases ns <;> simp [ofNames, ByteString.intercalate, List.intercalate_cons_cons, hbytes]
      simpa [isAbsolute, hhead] using hb

/-! ### Clean names -/

/-- The names of a clean path in reverse: two dots stand only in front of all other names, and not
    at all if the path starts at the root. -/
inductive IsSettled (absolute : Bool) : List ByteString → Prop
  | nil : IsSettled absolute []
  | up {done : List ByteString} (h : absolute = false) (hdone : ∀ name ∈ done, name = above) :
    IsSettled absolute (above :: done)
  | down {name : ByteString} {done : List ByteString} (hhere : name ≠ here) (habove : name ≠ above)
    (h : IsSettled absolute done) : IsSettled absolute (name :: done)

theorem IsSettled.of_all_above (h : absolute = false) (hdone : ∀ name ∈ done, name = above) :
    IsSettled absolute done := by
  cases done with
  | nil => exact .nil
  | cons name done =>
    obtain rfl := hdone name List.mem_cons_self
    exact .up h fun n hn => hdone n (List.mem_cons_of_mem _ hn)

/-- What is left of settled names when the last ones are taken away is settled. -/
theorem IsSettled.of_append {last before : List ByteString}
    (h : IsSettled absolute (last ++ before)) : IsSettled absolute before := by
  induction last with
  | nil => exact h
  | cons name last ih =>
    cases h with
    | up habs hdone => exact .of_all_above habs fun n hn => hdone n (List.mem_append_right _ hn)
    | down _ _ h => exact ih h

theorem cleanNames_append (absolute : Bool) (ns rest done : List ByteString) :
    cleanNames absolute (ns ++ rest) done =
      cleanNames absolute rest (cleanNames absolute ns done) := by
  fun_induction cleanNames absolute ns done <;> simp_all [cleanNames]

theorem isSettled_cleanNames (h : IsSettled absolute done) :
    IsSettled absolute (cleanNames absolute ns done) := by
  fun_induction cleanNames absolute ns done with
  | case1 => exact h
  | case2 _ _ ih => exact ih h
  | case3 ns before _ ih =>
    -- Two dots behind two dots: all of the names so far are two dots.
    cases h with
    | up habs hdone =>
      refine ih (.up habs fun n hn => ?_)
      rcases List.mem_cons.mp hn with rfl | hn
      · rfl
      · exact hdone n hn
    | down _ hne _ => exact absurd rfl hne
  | case4 ns last before hlast _ ih =>
    cases h with
    | up => exact absurd rfl hlast
    | down _ _ h => exact ih h
  | case5 ns _ ih =>
    cases absolute with
    | true => exact ih .nil
    | false => exact ih (.up rfl (by simp))
  | case6 name ns done hhere habove ih => exact ih (.down hhere habove h)

theorem cleanNames_of_isSettled (h : IsSettled absolute (ns.reverse ++ done)) :
    cleanNames absolute ns done = ns.reverse ++ done := by
  induction ns generalizing done with
  | nil => rfl
  | cons name ns ih =>
    rw [List.reverse_cons, List.append_assoc, List.singleton_append] at h ⊢
    rw [← ih h]
    cases h.of_append with
    | up habs hdone =>
      subst habs
      cases done with
      | nil => rfl
      | cons last before =>
        obtain rfl := hdone last List.mem_cons_self
        rfl
    | down hhere habove _ => simp [cleanNames, hhere, habove]

theorem mem_cleanNames (h : name ∈ cleanNames absolute ns done) :
    name ∈ ns ∨ name ∈ done ∨ name = above := by
  fun_induction cleanNames absolute ns done <;> grind

theorem cleanNames_of_not_above (h : above ∉ ns) :
    cleanNames absolute ns done = (ns.filter (· ≠ here)).reverse ++ done := by
  induction ns generalizing done with
  | nil => rfl
  | cons name ns ih =>
    obtain ⟨hne, hns⟩ := List.ne_and_not_mem_of_not_mem_cons h
    by_cases hhere : name = here
    · simp [cleanNames, hhere, ih hns]
    · simp [cleanNames, hhere, Ne.symm hne, ih hns]

/-! ### Clean paths -/

/-- The names of a clean path. The path of no names is that of the root, or a dot. -/
def settled (path : Path) : List ByteString :=
  (cleanNames path.isAbsolute path.names []).reverse

theorem isName_of_mem_settled (h : name ∈ path.settled) : IsName name := by
  rcases mem_cleanNames (List.mem_reverse.mp h) with h | h | rfl
  · exact isName_of_mem_names h
  · exact absurd h List.not_mem_nil
  · exact isName_above

theorem isSettled_settled (path : Path) : IsSettled path.isAbsolute path.settled.reverse := by
  rw [settled, List.reverse_reverse]
  exact isSettled_cleanNames .nil

/-- A clean path is written with its names, or as a dot. -/
theorem clean_eq (path : Path) :
    path.clean = if path.settled = [] ∧ path.isAbsolute = false then here
      else ofNames path.isAbsolute path.settled := by
  unfold clean settled
  simp

theorem isAbsolute_clean (path : Path) : path.clean.isAbsolute = path.isAbsolute := by
  rw [clean_eq]
  split
  · rename_i h
    exact h.2.symm
  · exact isAbsolute_ofNames fun _ => isName_of_mem_settled

theorem isAbsolute_append_slash (hpath : path.isEmpty = false) (rest : Path) :
    isAbsolute ⟨path.bytes ++ slash :: rest.bytes⟩ = path.isAbsolute := by
  obtain ⟨b, bytes, hbytes⟩ : ∃ b bytes, path.bytes = b :: bytes :=
    List.exists_cons_of_ne_nil (by simpa [ByteString.isEmpty] using hpath)
  simp [isAbsolute, hbytes]

theorem settled_append_slash {rest : Path} (hpath : path.isEmpty = false)
    (hrest : above ∉ rest.names) :
    settled ⟨path.bytes ++ slash :: rest.bytes⟩ =
      path.settled ++ rest.names.filter (· ≠ here) := by
  unfold settled
  rw [isAbsolute_append_slash hpath, names_append_slash, cleanNames_append,
    cleanNames_of_not_above hrest, List.reverse_append, List.reverse_reverse]

theorem join_pair {rest : Path} (hpath : path.isEmpty = false) :
    join [path, rest] = clean ⟨path.bytes ++ slash :: rest.bytes⟩ := by
  simp [join, hpath, ByteString.intercalate, List.intercalate_cons_cons]

/-! ### Names in a directory -/

/-- What can be the name of an entry of a directory. -/
structure IsEntryName (name : ByteString) : Prop where
  isName : IsName name
  ne_here : name ≠ here
  ne_above : name ≠ above

instance (name : ByteString) : Decidable (IsEntryName name) :=
  decidable_of_iff ((name.bytes ≠ [] ∧ slash ∉ name.bytes) ∧ name ≠ here ∧ name ≠ above)
    ⟨fun h => ⟨h.1, h.2.1, h.2.2⟩, fun h => ⟨h.isName, h.ne_here, h.ne_above⟩⟩

theorem names_of_isName (h : IsName name) : names name = [name] := by
  simpa [ByteString.intercalate] using @names_intercalate [name] (by simpa using h)

theorem intercalate_concat {parts : List (List UInt8)} (h : parts ≠ []) (last : List UInt8) :
    [separator].intercalate (parts ++ [last]) =
      [separator].intercalate parts ++ separator :: last := by
  induction parts with
  | nil => exact absurd rfl h
  | cons part parts ih =>
    cases parts with
    | nil => simp [List.intercalate_cons_cons]
    | cons next parts =>
      rw [List.cons_append, List.cons_append, List.intercalate_cons_cons,
        List.intercalate_cons_cons, ← List.cons_append, ih (by simp)]
      simp

theorem ofNames_concat (absolute : Bool) (h : ns ≠ []) (name : ByteString) :
    (ofNames absolute (ns ++ [name])).bytes =
      (ofNames absolute ns).bytes ++ slash :: name.bytes := by
  have hns : ns.map ByteString.bytes ≠ [] := by simpa using h
  cases absolute <;> simp [ofNames, ByteString.intercalate, intercalate_concat hns]

/-- A name ends its path. -/
theorem exists_ofNames_concat (absolute : Bool) (ns : List ByteString) (name : ByteString) :
    ∃ front, (ofNames absolute (ns ++ [name])).bytes = front ++ name.bytes := by
  by_cases h : ns = []
  · subst h
    cases absolute with
    | false => exact ⟨[], by simp [ofNames, ByteString.intercalate]⟩
    | true => exact ⟨[slash], by simp [ofNames, ByteString.intercalate]⟩
  · exact ⟨(ofNames absolute ns).bytes ++ [slash], by simp [ofNames_concat absolute h]⟩

theorem isName_of_mem_settled_append {n : ByteString} (hname : IsName name)
    (h : n ∈ path.settled ++ [name]) : IsName n := by
  rcases List.mem_append.mp h with h | h
  · exact isName_of_mem_settled h
  · rw [List.mem_singleton] at h
    exact h ▸ hname

section Entry

variable {path : Path} {name : ByteString} (hpath : path.isEmpty = false)
  (hname : IsEntryName name)
include hpath hname

theorem settled_append_entry :
    settled ⟨path.bytes ++ slash :: name.bytes⟩ = path.settled ++ [name] := by
  have habove : above ∉ names name := by
    rw [names_of_isName hname.isName, List.mem_singleton]
    exact hname.ne_above.symm
  rw [settled_append_slash hpath habove, names_of_isName hname.isName]
  simp [hname.ne_here]

theorem join_entry : join [path, name] = ofNames path.isAbsolute (path.settled ++ [name]) := by
  rw [join_pair hpath, clean_eq, settled_append_entry hpath hname, isAbsolute_append_slash hpath]
  simp

theorem names_join_entry : (join [path, name]).names = path.settled ++ [name] := by
  rw [join_entry hpath hname]
  exact names_ofNames fun _ => isName_of_mem_settled_append hname.isName

theorem isAbsolute_join_entry : (join [path, name]).isAbsolute = path.isAbsolute := by
  rw [join_entry hpath hname]
  exact isAbsolute_ofNames fun _ => isName_of_mem_settled_append hname.isName

theorem endsWithSlash_join_entry : (join [path, name]).endsWithSlash = false := by
  obtain ⟨front, hfront⟩ := exists_ofNames_concat path.isAbsolute path.settled name
  obtain ⟨init, b, hb⟩ := (List.eq_nil_or_concat name.bytes).resolve_left hname.isName.1
  have hslash : b ≠ slash := by
    rintro rfl
    exact hname.isName.2 (by simp [hb])
  rw [join_entry hpath hname, endsWithSlash, hfront, hb]
  simpa using hslash

theorem settled_join_entry : (join [path, name]).settled = path.settled ++ [name] := by
  have h : IsSettled path.isAbsolute ((path.settled ++ [name]).reverse ++ []) := by
    rw [List.append_nil, List.reverse_append]
    exact .down hname.ne_here hname.ne_above (isSettled_settled path)
  rw [settled, names_join_entry hpath hname, isAbsolute_join_entry hpath hname,
    cleanNames_of_isSettled h]
  simp

theorem clean_join_entry : clean (join [path, name]) = join [path, name] := by
  rw [clean_eq, settled_join_entry hpath hname, isAbsolute_join_entry hpath hname,
    join_entry hpath hname]
  simp

theorem isEmpty_join_entry : (join [path, name]).isEmpty = false := by
  obtain ⟨front, hfront⟩ := exists_ofNames_concat path.isAbsolute path.settled name
  rw [join_entry hpath hname, ByteString.isEmpty, hfront]
  simpa using fun _ => hname.isName.1

theorem length_clean_lt_join_entry (h : ¬(path.settled = [] ∧ path.isAbsolute = false)) :
    path.clean.length < (join [path, name]).length := by
  have hpos : 0 < name.bytes.length := List.length_pos_iff.mpr hname.isName.1
  rw [clean_eq, if_neg h, join_entry hpath hname, ByteString.length, ByteString.length]
  by_cases hnil : path.settled = []
  · have habs : path.isAbsolute = true := by simpa [hnil] using h
    rw [hnil, habs]
    simpa [ofNames, ByteString.intercalate] using hpos
  · rw [ofNames_concat _ hnil, List.length_append]
    simp

end Entry

/-! ### Names of tests -/

/-- Bytes without a dot in front of a path add no name of two dots. -/
theorem above_of_append_left {front : List UInt8} (hfront : dot ∉ front)
    (h : above.bytes ∈ splitBytes slash (front ++ bytes)) :
    above.bytes ∈ splitBytes slash bytes := by
  induction front with
  | nil => exact h
  | cons b front ih =>
    obtain ⟨hb, hfront⟩ := List.ne_and_not_mem_of_not_mem_cons hfront
    rw [List.cons_append, splitBytes] at h
    by_cases hslash : b = slash
    · rw [if_pos hslash] at h
      exact ih hfront ((List.mem_cons.mp h).resolve_left (by decide))
    · rw [if_neg hslash] at h
      split at h
      · rw [List.mem_singleton] at h
        exact absurd (List.cons.inj h).1 hb
      · rename_i part parts hparts
        rcases List.mem_cons.mp h with h | h
        · exact absurd (List.cons.inj h).1 hb
        · exact ih hfront (hparts ▸ List.mem_cons_of_mem _ h)

theorem above_of_append_right {tail : List UInt8} (hslash : slash ∉ tail) (hlong : 2 < tail.length)
    (h : above.bytes ∈ splitBytes slash (bytes ++ tail)) :
    above.bytes ∈ splitBytes slash bytes := by
  obtain ⟨before, last, hbytes, happend⟩ := splitBytes_append hslash bytes
  rw [happend] at h
  rcases List.mem_append.mp h with h | h
  · rw [hbytes]
    exact List.mem_append_left _ h
  · rw [List.mem_singleton] at h
    have hlength := congrArg List.length h
    rw [List.length_append] at hlength
    have habove : above.bytes.length = 2 := rfl
    omega

/-- The path of a class without dots in its name, with a suffix that does not lead upwards, does not
    lead upwards. -/
theorem above_not_mem_names_test {name : String} {suffix extension : ByteString}
    (hname : '.' ∉ name.toList) (hsuffix : above ∉ names suffix)
    (hslash : slash ∉ extension.bytes) (hlong : 2 < extension.length) :
    above ∉ names ((name : ByteString) ++ suffix ++ extension) := by
  have hne : above.bytes ≠ [] := isName_above.1
  rw [mem_names_iff hne] at hsuffix ⊢
  intro h
  have hdot : dot ∉ (ofString name).bytes := fun hdot =>
    hname (Text.mem_of_mem_utf8 (by decide) hdot)
  refine hsuffix (above_of_append_right hslash hlong (above_of_append_left hdot ?_))
  rw [← List.append_assoc]
  exact h

end Path

end ClassAudit
