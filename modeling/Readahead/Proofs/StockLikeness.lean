import Readahead.Proofs.QueryYields
import Readahead.Proofs.StockForgotten

/-! Two scanners that differ at most in their stocks do the same. A pass makes either stock the
decoding of the window, so from there on the two are one; before it, a stock that is large enough
only saves the pass. What the passes report is left out of what is compared. -/
namespace Readahead

def Note.ofCount : Note → Bool
  | .decoded _ _ => true
  | _ => false

def Note.ofPass : Note → Bool
  | .decoded _ _ | .malformed _ => true
  | _ => false

def Event.ofPass : Event → Bool
  | .pull _ _ => false
  | .note n => n.ofPass

def outside (events : List Event) : List Event := events.filter fun e => !e.ofPass

theorem outsideAppend (first later : List Event) :
    outside (first ++ later) = outside first ++ outside later := List.filter_append _ _

/- Two runs that give the same, with the same events outside the passes, and end in related states. -/
structure Run.Alike {σ α : Type} (related : σ → σ → Prop) (r k : Run σ α) : Prop where
  result : r.result = k.result
  state : related r.state k.state
  events : outside r.trace = outside k.trace

section Alike

variable {σ τ α β : Type} {related : σ → σ → Prop} {further : τ → τ → Prop} {r k : Run σ α}

theorem alikeStill {a b : α} {s t : σ} (same : a = b) (states : related s t) :
    Run.Alike related (.still a s) (.still b t) := ⟨same, states, rfl⟩

theorem alikeThen {next after : α → σ → Run τ β} (first : Run.Alike related r k)
    (later : Run.Alike further (next r.result r.state) (after r.result k.state)) :
    Run.Alike further (r.andThen next) (k.andThen after) := by
  obtain ⟨result, state, events⟩ := later
  rw [first.result] at result state events
  refine ⟨?_, ?_, ?_⟩
  · rw [Run.andThenResult, Run.andThenResult, first.result]
    exact result
  · rw [Run.andThenState, Run.andThenState, first.result]
    exact state
  · rw [Run.andThenTrace, Run.andThenTrace, outsideAppend, outsideAppend, first.events,
      first.result, events]

theorem alikeMap (f : α → β) (first : Run.Alike related r k) :
    Run.Alike related (r.map f) (k.map f) :=
  ⟨congrArg f first.result, first.state, first.events⟩

theorem alikeBack (other : ∀ s t, related s t → related t s) (first : Run.Alike related r k) :
    Run.Alike related k r := ⟨first.result.symm, other _ _ first.state, first.events.symm⟩

theorem alikeTold {g h : α → σ → β} (first : Run.Alike related r k)
    (told : g r.result r.state = h k.result k.state) :
    Run.Alike related (r.andThen fun a s => .still (g a s) s)
      (k.andThen fun a s => .still (h a s) s) := by
  refine ⟨told, first.state, ?_⟩
  rw [Run.andThenTrace, Run.andThenTrace, Run.still, Run.still, List.append_nil, List.append_nil]
  exact first.events

end Alike

namespace Feed

theorem gatherAlike {f g : Feed} (same : f.forget = g.forget) (n : Nat) :
    Run.Alike (fun f g => f.forget = g.forget) (f.gather n) (g.gather n) := by
  have both : (f.gather n).within forget = (g.gather n).within forget := by
    rw [← gatherForgets, ← gatherForgets, same]
  obtain ⟨result, state, trace⟩ := Run.mk.inj both
  exact ⟨result, state, congrArg outside trace⟩

end Feed

namespace Lookahead

structure Alike (l k : Lookahead) : Prop where
  left : l.Fit
  right : k.Fit
  feed : l.feed.forget = k.feed.forget
  offset : l.offset = k.offset

variable {l k : Lookahead}

theorem alikeOther (l k : Lookahead) (alike : l.Alike k) : k.Alike l :=
  ⟨alike.right, alike.left, alike.feed.symm, alike.offset.symm⟩

theorem alikeBuffer (alike : l.Alike k) : l.feed.buffer = k.feed.buffer :=
  (Feed.mk.inj alike.feed).1

theorem alikeWindow (alike : l.Alike k) : l.window = k.window :=
  congrArg Buffer.window (alikeBuffer alike)

theorem scannedAlike (alike : l.Alike k) :
    l.scanned.Alike k.scanned ∧ l.scanned.stock = k.scanned.stock :=
  ⟨⟨scannedFit alike.left, scannedFit alike.right, alike.feed, alike.offset⟩,
    congrArg Stock.whole (alikeWindow alike)⟩

theorem passOutside (l : Lookahead) : outside l.pass.trace = [] := by
  unfold pass
  simp only
  split
  · rfl
  · split <;> rfl

theorem passAlike (alike : l.Alike k) : Run.Alike Alike l.pass k.pass := by
  refine ⟨?_, ?_, by rw [passOutside, passOutside]⟩
  · rw [passResult alike.left.stock, passResult alike.right.stock, alikeWindow alike, alike.offset]
  · rw [passState alike.left.stock, passState alike.right.stock]
    exact (scannedAlike alike).1

theorem settleAlike {n : Nat} {next : Lookahead → Run Lookahead (Except Fault Unit)}
    (alike : l.Alike k) (later : Run.Alike Alike (next l.scanned) (next k.scanned)) :
    Run.Alike Alike (l.settle n next) (k.settle n next) := by
  obtain ⟨scanned, stock⟩ := scannedAlike alike
  refine alikeThen (passAlike alike) ?_
  rw [passState alike.left.stock, passState alike.right.stock, stock]
  split
  · exact alikeStill rfl scanned
  · split
    · exact alikeStill rfl scanned
    · exact later

theorem scannedCount (fit : l.Fit) : l.stock.count ≤ l.scanned.stock.count := by
  have whole := congrArg (List.length ∘ Utf8.Decoding.scalars) (Stock.coversDecode fit.stock)
  simp only [Function.comp, List.length_append] at whole
  change l.stock.scalars.length ≤ (Utf8.decode l.window).scalars.length
  omega

theorem heldAlike {n : Nat} {next : Lookahead → Run Lookahead (Except Fault Unit)}
    (alike : l.Alike k) (held : n ≤ l.stock.count) :
    Run.Alike Alike (.still (.ok ()) l) (k.settle n next) := by
  have fit := alike.left
  have enough : n ≤ k.pass.state.stock.count := by
    rw [passState alike.right.stock, ← (scannedAlike alike).2]
    exact Nat.le_trans held (scannedCount fit)
  have settled : k.settle n next = k.pass.andThen fun _ k => .still (.ok ()) k := by
    unfold settle Run.andThen
    simp only [if_pos enough]
  rw [settled]
  refine ⟨rfl, ?_, ?_⟩
  · rw [Run.andThenState, passState alike.right.stock]
    exact ⟨fit, scannedFit alike.right, alike.feed, alike.offset⟩
  · rw [Run.andThenTrace, outsideAppend, passOutside]
    rfl

theorem overfullAlike {n : Nat} (alike : l.Alike k) (stock : l.stock = k.stock) :
    Run.Alike Alike (l.overfull n) (k.overfull n) := by
  unfold overfull
  rw [stock, alikeBuffer alike]
  split
  · exact ⟨rfl, alike, rfl⟩
  · exact alikeStill rfl alike

theorem lackingAlike {n : Nat} {fault : Fault} (alike : l.Alike k) (stock : l.stock = k.stock) :
    l.lacking n fault = k.lacking n fault := by
  simp only [lacking, front, stock, alikeBuffer alike, alike.offset]

theorem fedAlike (alike : l.Alike k) (n : Nat) :
    Run.Alike (fun f g => (l.fed f).Alike (k.fed g)) (l.feed.gather n) (k.feed.gather n) := by
  obtain ⟨result, state, events⟩ := Feed.gatherAlike alike.feed n
  have left := chainFit (fedChain l (Feed.gatherChain n l.feed)) alike.left
  have right := chainFit (fedChain k (Feed.gatherChain n k.feed)) alike.right
  exact ⟨result, ⟨left, right, state, alike.offset⟩, events⟩

theorem fillAlike {n fuel : Nat} (alike : l.Alike k) :
    Run.Alike Alike (fill n fuel l) (fill n fuel k) := by
  induction fuel generalizing l k with
  | zero => exact alikeStill rfl alike
  | succ fuel ih =>
    unfold fill
    -- One of the two may have enough ready where the other has yet to decode it.
    split
    · rename_i held
      split
      · exact alikeStill rfl alike
      · exact heldAlike alike held
    split
    · rename_i held
      exact alikeBack alikeOther (heldAlike (alikeOther l k alike) held)
    refine settleAlike alike ?_
    obtain ⟨scanned, stock⟩ := scannedAlike alike
    rw [← alikeBuffer scanned]
    split
    · exact alikeMap _ (overfullAlike scanned stock)
    refine alikeThen (fedAlike scanned _) ?_
    have fed := (fedAlike scanned (l.scanned.feed.buffer.filled + 1)).state
    dsimp only
    split
    · exact ih fed
    · refine settleAlike fed ?_
      obtain ⟨last, same⟩ := scannedAlike fed
      exact alikeStill (congrArg Except.error (lackingAlike last same)) last

theorem gatherAlike (alike : l.Alike k) (n : Nat) :
    Run.Alike Alike (l.gather n) (k.gather n) := by
  unfold gather
  rw [alikeBuffer alike]
  split
  · exact alikeStill rfl alike
  · exact fillAlike alike

end Lookahead
end Readahead
