import Readahead.Run

/-! Chains of steps, each with the events that happened in it. What every step keeps, a chain keeps,
and a chain over the parts of a state is one over the whole. -/
namespace Readahead

inductive Chain {σ : Type} (step : σ → List Event → σ → Prop) : σ → List Event → σ → Prop where
  | rest (s : σ) : Chain step s [] s
  | next {s t u : σ} {first later : List Event}
      (head : step s first t) (tail : Chain step t later u) : Chain step s (first ++ later) u

namespace Chain

variable {σ τ : Type} {step : σ → List Event → σ → Prop}

theorem one {s t : σ} {events : List Event} (h : step s events t) : Chain step s events t := by
  have chain := Chain.next h (.rest t)
  rwa [List.append_nil] at chain

theorem append {s t u : σ} {first later : List Event} (left : Chain step s first t)
    (right : Chain step t later u) : Chain step s (first ++ later) u := by
  induction left with
  | rest s => exact right
  | next head tail ih =>
    rw [List.append_assoc]
    exact .next head (ih right)

theorem keeps (kept : σ → Prop) (each : ∀ s t events, kept s → step s events t → kept t)
    {s t : σ} {events : List Event} (chain : Chain step s events t) (start : kept s) : kept t := by
  induction chain with
  | rest s => exact start
  | next head tail ih => exact ih (each _ _ _ start head)

theorem relates (kept : σ → Prop) (related : σ → σ → Prop)
    (each : ∀ s t events, kept s → step s events t → kept t ∧ related s t)
    (same : ∀ s, related s s)
    (joined : ∀ s t u, related s t → related t u → related s u)
    {s t : σ} {events : List Event} (chain : Chain step s events t) (start : kept s) :
    related s t := by
  induction chain with
  | rest s => exact same s
  | next head tail ih =>
    obtain ⟨further, first⟩ := each _ _ _ start head
    exact joined _ _ _ first (ih further)

theorem lift {whole : τ → List Event → τ → Prop} (f : σ → τ) (kept : σ → Prop)
    (each : ∀ s t events, kept s → step s events t → kept t ∧ whole (f s) events (f t))
    {s t : σ} {events : List Event} (chain : Chain step s events t) (start : kept s) :
    Chain whole (f s) events (f t) := by
  induction chain with
  | rest s => exact .rest (f s)
  | next head tail ih =>
    obtain ⟨further, first⟩ := each _ _ _ start head
    exact .next first (ih further)

theorem around {s t : σ} {events before after : List Event} {event : Event}
    (chain : Chain step s events t) (parts : events = before ++ event :: after) :
    ∃ r u first earlier rest, Chain step s first r ∧ step r (earlier ++ event :: rest) u ∧
      before = first ++ earlier := by
  induction chain generalizing before with
  | rest s => exact absurd parts.symm (List.append_ne_nil_of_right_ne_nil _ (List.cons_ne_nil _ _))
  | @next s m t head later step tail ih =>
    obtain ⟨between, mine, rest⟩ | ⟨between, mine, rest⟩ := List.append_eq_append_iff.mp parts
    · obtain ⟨r, u, first, earlier, more, chain, here, same⟩ := ih rest
      exact ⟨r, u, head ++ first, earlier, more, .next step chain, here, by
        rw [mine, same, List.append_assoc]⟩
    · cases between with
      | nil =>
        have empty : later = [] ++ event :: after := rest.symm
        obtain ⟨r, u, first, earlier, more, chain, here, same⟩ := ih empty
        refine ⟨r, u, head ++ first, earlier, more, .next step chain, here, ?_⟩
        rw [List.append_assoc, ← same, mine, List.append_nil, List.append_nil]
      | cons other between =>
        obtain ⟨rfl, -⟩ := List.cons.inj rest
        rw [mine] at step
        exact ⟨s, m, [], before, between, .rest s, step, rfl⟩

end Chain

namespace Run

variable {σ τ υ α β γ : Type}

theorem andThenResult (r : Run σ α) (next : α → σ → Run τ β) :
    (r.andThen next).result = (next r.result r.state).result := rfl

theorem andThenState (r : Run σ α) (next : α → σ → Run τ β) :
    (r.andThen next).state = (next r.result r.state).state := rfl

theorem andThenTrace (r : Run σ α) (next : α → σ → Run τ β) :
    (r.andThen next).trace = r.trace ++ (next r.result r.state).trace := rfl

theorem andThenSame {r : Run σ α} {next other : α → σ → Run τ β}
    (same : next r.result r.state = other r.result r.state) : r.andThen next = r.andThen other := by
  simp only [andThen, same]

end Run
end Readahead
