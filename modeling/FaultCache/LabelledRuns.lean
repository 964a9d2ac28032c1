import Mathlib.Data.List.Basic

/-!
# Runs of a labelled transition relation

Several threads interleave as one relation `Move s l s'` whose label says which
thread did what. A run keeps its moves, newest first, together with the state
each of them was made in, so that a property of every move of a run can be
stated and an invariant is available at every one of them.
-/

set_option autoImplicit false

namespace FaultCache.LabelledRuns

variable {S L : Type*}

inductive Run (Move : S → L → S → Prop) (s₀ : S) : List (S × L) → S → Prop
  | start : Run Move s₀ [] s₀
  | move {ms : List (S × L)} {s s' : S} {l : L} (hr : Run Move s₀ ms s) (hm : Move s l s') :
      Run Move s₀ ((s,l)::ms) s'

namespace Run
variable {Move : S → L → S → Prop} {s₀ s s' : S} {ms ns : List (S × L)} {Inv : S → Prop}

/-- What holds at first and is kept by every move that meets the guard holds
throughout a run whose moves all meet it. -/
theorem guarded (Guard : S → L → Prop) (h₀ : Inv s₀)
    (hstep : ∀ {s s' l}, Inv s → Move s l s' → Guard s l → Inv s') (hr : Run Move s₀ ms s)
    (hg : ∀ m ∈ ms, Guard m.1 m.2) : Inv s ∧ ∀ m ∈ ms, Inv m.1 := by
  induction hr with
  | start => exact ⟨h₀,by simp⟩
  | move _ hm ih =>
    obtain ⟨hs,hms⟩ := ih (fun m hmem => hg m (List.mem_cons_of_mem _ hmem))
    refine ⟨hstep hs hm (hg _ List.mem_cons_self),?_⟩
    intro m hmem
    rcases List.mem_cons.mp hmem with rfl | hmem
    · exact hs
    · exact hms m hmem

/-- What holds at first and is kept by every move holds throughout a run. -/
theorem invariant (h₀ : Inv s₀) (hstep : ∀ {s s' l}, Inv s → Move s l s' → Inv s')
    (hr : Run Move s₀ ms s) : Inv s ∧ ∀ m ∈ ms, Inv m.1 :=
  guarded (fun _ _ => True) h₀ (fun h hm _ => hstep h hm) hr (fun _ _ => trivial)

theorem made (hr : Run Move s₀ ms s) {v : S} {l : L} (hmem : (v,l) ∈ ms) : ∃ v', Move v l v' := by
  induction hr with
  | start => cases hmem
  | move _ hm ih =>
    rcases List.mem_cons.mp hmem with he | hmem
    · obtain ⟨rfl,rfl⟩ := Prod.mk.inj he
      exact ⟨_,hm⟩
    · exact ih hmem

/-- The run up to one of its moves. -/
theorem before {v : S} {l : L} (hr : Run Move s₀ (ns ++ (v,l)::ms) s) : Run Move s₀ ms v := by
  induction ns generalizing s with
  | nil =>
    cases hr with
    | move hr _ => exact hr
  | cons n ns ih =>
    cases hr with
    | move hr _ => exact ih hr

/-- The run from one of its moves on. -/
theorem rest {v : S} {l : L} (hr : Run Move s₀ ms s) (hmem : (v,l) ∈ ms) : ∃ ns, Run Move v ns s := by
  induction hr with
  | start => cases hmem
  | move _ hm ih =>
    rcases List.mem_cons.mp hmem with he | hmem
    · obtain ⟨rfl,rfl⟩ := Prod.mk.inj he
      exact ⟨_,.move .start hm⟩
    · obtain ⟨ns,hns⟩ := ih hmem
      exact ⟨_,.move hns hm⟩

theorem append (hr : Run Move s₀ ms s) (hs : Run Move s ns s') : Run Move s₀ (ns ++ ms) s' := by
  induction hs with
  | start => exact hr
  | move _ hm ih => exact .move ih hm

end Run

/-- `Q` holds now, or held at a moment since the last marked move. -/
def Since (mark : L → Prop) (Q : S → Prop) : List (S × L) → S → Prop
  | [], s => Q s
  | (v,l)::ms, s => Q s ∨ ¬ mark l ∧ Since mark Q ms v

theorem Since.now {mark : L → Prop} {Q : S → Prop} {ms : List (S × L)} {s : S} (h : Q s) : Since mark Q ms s := by
  cases ms with
  | nil => exact h
  | cons m ms => exact Or.inl h

/-- The run of a deterministic machine on a list of labels, oldest first. -/
def trace (step : S → L → Option S) (s : S) : List L → Option (List (S × L) × S)
  | [] => some ([],s)
  | l::ls => (step s l).bind (fun s' => (trace step s' ls).map (fun r => (r.1 ++ [(s,l)],r.2)))

theorem trace_run {step : S → L → Option S} {s s' : S} {ls : List L} {ms : List (S × L)}
    (h : trace step s ls = some (ms,s')) : Run (fun s l s' => step s l = some s') s ms s' := by
  induction ls generalizing s ms with
  | nil =>
    cases h
    exact .start
  | cons l ls ih =>
    obtain ⟨s₁,h₁,h₂⟩ := Option.bind_eq_some_iff.mp h
    obtain ⟨⟨ns,s₂⟩,h₃,he⟩ := Option.map_eq_some_iff.mp h₂
    cases he
    exact (Run.move .start h₁).append (ih h₃)

theorem trace_labels {step : S → L → Option S} {s s' : S} {ls : List L} {ms : List (S × L)}
    (h : trace step s ls = some (ms,s')) : ms.map Prod.snd = ls.reverse := by
  induction ls generalizing s ms with
  | nil =>
    cases h
    rfl
  | cons l ls ih =>
    obtain ⟨s₁,h₁,h₂⟩ := Option.bind_eq_some_iff.mp h
    obtain ⟨⟨ns,s₂⟩,h₃,he⟩ := Option.map_eq_some_iff.mp h₂
    cases he
    rw [List.map_append,ih h₃,List.reverse_cons]
    rfl

end FaultCache.LabelledRuns
