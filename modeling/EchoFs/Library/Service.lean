import Mathlib.Data.List.Basic

/-! A service with a state: calls that reply, steps of its own between them, and what it
comes to when it serves the calls of a log one after the other. -/

structure Service (σ κ ρ : Type*) where
  call : σ → κ → ρ → σ → Prop
  work : σ → σ → Prop

namespace Service
variable {σ κ ρ ι : Type*} {S : Service σ κ ρ} {s s' s'' : σ} {l l' : List (ι × κ × ρ)}

/-- From `s` to `s'` the service replies to the calls of the log, in their order. -/
inductive Serves (S : Service σ κ ρ) (s : σ) : List (ι × κ × ρ) → σ → Prop
  | nil : Serves S s [] s
  | call {l : List (ι × κ × ρ)} {s' s'' : σ} {i : ι} {q : κ} {r : ρ} :
      Serves S s l s' → S.call s' q r s'' → Serves S s (l ++ [(i, q, r)]) s''
  | work {l : List (ι × κ × ρ)} {s' s'' : σ} : Serves S s l s' → S.work s' s'' → Serves S s l s''

theorem Serves.append (h : S.Serves s l s') (h' : S.Serves s' l' s'') :
    S.Serves s (l ++ l') s'' := by
  induction h' with
  | nil => rwa [List.append_nil]
  | call _ hcall ih =>
    rw [← List.append_assoc]
    exact ih.call hcall
  | work _ hwork ih => exact ih.work hwork

theorem Serves.invariant {I : σ → Prop} (hcall : ∀ s q r s', I s → S.call s q r s' → I s')
    (hwork : ∀ s s', I s → S.work s s' → I s') (hs : I s) (h : S.Serves s l s') : I s' := by
  induction h with
  | nil => exact hs
  | call _ hc ih => exact hcall _ _ _ _ ih hc
  | work _ hw ih => exact hwork _ _ ih hw

/-- A log that goes on is served by going on. -/
theorem Serves.of_append : ∀ {l' : List (ι × κ × ρ)} {s'' : σ}, S.Serves s (l ++ l') s'' →
    ∃ s', S.Serves s l s' ∧ S.Serves s' l' s'' := by
  intro l' s'' h
  generalize hall : l ++ l' = all at h
  induction h generalizing l' with
  | nil =>
    obtain ⟨rfl, rfl⟩ := List.append_eq_nil_iff.mp hall
    exact ⟨s, .nil, .nil⟩
  | @call log s₁ s₂ i q r hs hcall ih =>
    rcases List.eq_nil_or_concat' l' with rfl | ⟨init, x, rfl⟩
    · rw [List.append_nil] at hall
      subst hall
      exact ⟨s₂, hs.call hcall, .nil⟩
    · rw [← List.append_assoc] at hall
      obtain ⟨rfl, hx⟩ := List.append_inj' hall rfl
      obtain rfl := List.singleton_inj.mp hx
      obtain ⟨s', hl, hinit⟩ := ih rfl
      exact ⟨s', hl, hinit.call hcall⟩
  | work _ hwork ih =>
    obtain ⟨s', hl, hl'⟩ := ih hall
    exact ⟨s', hl, hl'.work hwork⟩

/-- A log of one call: steps of the service, the call, and steps again. -/
theorem Serves.of_singleton {i : ι} {q : κ} {r : ρ} (h : S.Serves s l s') (hl : l = [(i, q, r)]) :
    ∃ s₁ s₂, S.Serves s ([] : List (ι × κ × ρ)) s₁ ∧ S.call s₁ q r s₂ ∧
      S.Serves s₂ ([] : List (ι × κ × ρ)) s' := by
  induction h with
  | nil => exact absurd hl.symm (List.cons_ne_nil _ _)
  | @call log s₁ s₂ j q' r' hs hcall _ =>
    have hl' : log ++ [(j, q', r')] = [] ++ [(i, q, r)] := hl
    obtain ⟨rfl, hx⟩ := List.append_inj' hl' rfl
    obtain ⟨rfl, rfl, rfl⟩ := by simpa using hx
    exact ⟨s₁, s₂, hs, hcall, .nil⟩
  | work _ hwork ih =>
    obtain ⟨s₁, s₂, hbefore, hcall, hafter⟩ := ih hl
    exact ⟨s₁, s₂, hbefore, hcall, hafter.work hwork⟩

/-- The turn of one call in a log. -/
theorem Serves.turn {i : ι} {q : κ} {r : ρ} (h : S.Serves s (l ++ (i, q, r) :: l') s') :
    ∃ s₁ s₂, S.Serves s l s₁ ∧ S.call s₁ q r s₂ ∧ S.Serves s₂ l' s' := by
  have hsplit : S.Serves s (l ++ ([(i, q, r)] ++ l')) s' := h
  obtain ⟨s₀, hbefore, hrest⟩ := hsplit.of_append
  obtain ⟨s₃, hone, hafter⟩ := hrest.of_append
  obtain ⟨s₁, s₂, hwork, hcall, hwork'⟩ := hone.of_singleton rfl
  refine ⟨s₁, s₂, ?_, hcall, hwork'.append hafter⟩
  have happ := hbefore.append hwork
  rwa [List.append_nil] at happ

end Service
