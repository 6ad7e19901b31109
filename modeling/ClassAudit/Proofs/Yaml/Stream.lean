import ClassAudit.Proofs.Yaml.Phase

/-! # What a stream hands out

    From what single steps emit follows what a stream hands out, token by token, to a reader that
    looks at the token at the head and takes it.

    * `Script` says what all steps from a phase emit, up to the end of the text.
    * `Hands` says what a stream hands out, when some tokens wait in its queue already. After the
      last of them it goes on handing out the end of the text.
-/

namespace ClassAudit.Yaml.TokenStream

/-! ### Scripts -/

/-- All steps from a phase emit some tokens, up to the end of the text. -/
inductive Script : Phase → List TokenKind → Prop
  | last {P : Phase} {kinds : List TokenKind} (h : Emits P kinds ended) : Script P kinds
  | step {P Q : Phase} {kinds rest : List TokenKind} (h : Emits P kinds Q) (hrest : Script Q rest) :
      Script P (kinds ++ rest)

namespace Script

variable {P Q : Phase} {before kinds : List TokenKind}

theorem opening (hQ : Script Q kinds) (h : Opens P before Q) : Script P (before ++ kinds) := by
  cases hQ with
  | last hemits => exact .last (h.emits hemits)
  | step hemits hrest =>
    rw [← List.append_assoc]
    exact .step (h.emits hemits) hrest

theorem within (hQ : Script Q kinds) (h : Within P Q) : Script P kinds :=
  hQ.opening h.opens

/-- A script starts with a step. Behind the last one, more steps find the end again and again. -/
theorem fetch (h : Script P kinds) {s : TokenStream} (hs : P.holds s) :
    ∃ s' Q kinds' n, s.fetch = .ok s' ∧ Q.holds s' ∧ Script Q kinds' ∧
      s.queue.length < s'.queue.length ∧
      s'.settled ++ kinds' = s.settled ++ kinds ++ List.replicate n .streamEnd := by
  cases h with
  | last hemits =>
    obtain ⟨s', hfetch, hs', hsettled, hlength⟩ := hemits s hs
    refine ⟨s', ended, [.streamEnd], 1, hfetch, hs', .last emits_ended, hlength, ?_⟩
    rw [hsettled]
    rfl
  | step hemits hrest =>
    obtain ⟨s', hfetch, hs', hsettled, hlength⟩ := hemits s hs
    refine ⟨s', _, _, 0, hfetch, hs', hrest, hlength, ?_⟩
    rw [hsettled, List.replicate_zero, List.append_nil, List.append_assoc]

end Script

/-! ### Tokens at the head -/

/-- A stream hands out some tokens, and then the end of the text. -/
def Hands (s : TokenStream) (kinds : List TokenKind) : Prop :=
  ∃ P rest n, P.holds s ∧ Script P rest ∧
    s.settled ++ rest = kinds ++ List.replicate n TokenKind.streamEnd

/-- The token at the head of the queue can be taken. -/
def Ready (s : TokenStream) : Prop :=
  2 < s.queue.length

theorem Ready.settled_ne_nil {s : TokenStream} (h : s.Ready) : s.settled ≠ [] := by
  have hlength := s.length_queue_le
  intro hnil
  rw [hnil, List.length_nil] at hlength
  unfold Ready at h
  omega

variable {s : TokenStream} {kinds : List TokenKind}

theorem fill_go_of_ready {P : Phase} (hs : P.holds s) (hready : s.Ready) (fuel : Nat) :
    fill.go (fuel + 1) s = .ok s := by
  have hlength : 2 < s.queue.length := hready
  rw [fill.go, if_pos hlength, headWaits, P.free hs hready.settled_ne_nil]
  rfl

/-- Finding tokens ahead does not change what a stream hands out. -/
theorem fill_go (fuel : Nat) (hfuel : 3 ≤ fuel + s.queue.length) (h : s.Hands kinds) :
    ∃ s', fill.go (fuel + 1) s = .ok s' ∧ s'.Hands kinds ∧ s'.Ready := by
  induction fuel generalizing s with
  | zero =>
    obtain ⟨P, rest, n, hs, hscript, heq⟩ := h
    have hready : s.Ready := by
      unfold Ready
      omega
    exact ⟨s, fill_go_of_ready hs hready 0, ⟨P, rest, n, hs, hscript, heq⟩, hready⟩
  | succ fuel ih =>
    obtain ⟨P, rest, n, hs, hscript, heq⟩ := h
    by_cases hready : s.Ready
    · exact ⟨s, fill_go_of_ready hs hready _, ⟨P, rest, n, hs, hscript, heq⟩, hready⟩
    · obtain ⟨s', Q, rest', m, hfetch, hs', hscript', hlength, hsettled⟩ := hscript.fetch hs
      have hhands : s'.Hands kinds := by
        refine ⟨Q, rest', n + m, hs', hscript', ?_⟩
        rw [hsettled, heq, List.append_assoc, List.replicate_append_replicate]
      obtain ⟨s'', hgo, hafter⟩ := ih (by omega) hhands
      refine ⟨s'', ?_, hafter⟩
      have hlength : ¬ 2 < s.queue.length := hready
      rw [fill.go, if_neg hlength, hfetch]
      exact hgo

theorem Hands.peek (h : s.Hands kinds) :
    ∃ t s', s.peek = .ok (t, s') ∧ t.kind = kinds.headD .streamEnd ∧ s'.Hands kinds ∧
      s'.Ready := by
  obtain ⟨s', hfill, hhands, hready⟩ := fill_go (s.place.left + 7) (by omega) h
  have hne : s'.queue ≠ [] := by
    intro hnil
    simp [Ready, hnil] at hready
  obtain ⟨t, queue, hqueue⟩ := List.exists_cons_of_ne_nil hne
  refine ⟨t, s', ?_, ?_, hhands, hready⟩
  · have hfill' : s.fill = .ok s' := hfill
    rw [TokenStream.peek, hfill']
    simp only [bind, Except.bind, hqueue]
    rfl
  · obtain ⟨P, rest, n, -, -, heq⟩ := hhands
    have hhead : s'.settled.head? = some t.kind := by
      unfold settled
      rw [hqueue]
      cases queue with
      | nil => simp [Ready, hqueue] at hready
      | cons u queue => split <;> rfl
    obtain ⟨settled, hsettled⟩ : ∃ l, s'.settled = t.kind :: l := by
      cases hl : s'.settled with
      | nil => rw [hl] at hhead; nomatch hhead
      | cons k l =>
        rw [hl] at hhead
        exact ⟨l, by rw [Option.some.inj hhead]⟩
    rw [hsettled] at heq
    cases kinds with
    | nil =>
      have hmem : t.kind ∈ List.replicate n TokenKind.streamEnd := by
        rw [← List.nil_append (List.replicate n TokenKind.streamEnd), ← heq]
        exact List.mem_cons_self
      exact List.eq_of_mem_replicate hmem
    | cons k kinds => exact (List.cons.inj heq).1

theorem Hands.take (h : s.Hands kinds) (hready : s.Ready) : s.take.Hands kinds.tail := by
  obtain ⟨P, rest, n, hs, hscript, heq⟩ := h
  have hne := hready.settled_ne_nil
  obtain ⟨k, settled, hsettled⟩ := List.exists_cons_of_ne_nil hne
  refine ⟨P, rest, if kinds = [] then n - 1 else n, P.take hs hne, hscript, ?_⟩
  rw [settled_take, hsettled]
  rw [hsettled] at heq
  cases kinds with
  | nil =>
    have htail := congrArg List.tail heq
    rw [List.nil_append, List.tail_replicate] at htail
    exact htail
  | cons k' kinds => exact (List.cons.inj heq).2

end ClassAudit.Yaml.TokenStream
