import Readahead.Drain
import Readahead.Feed
import Readahead.Front
import Readahead.Proofs.Chain

/-! Readers with the stocks of their layers left out. A stock is no part of what a reader delivers:
raw reads, and all that is made of them, go the same with it and without it, down to the reads that
reach the stream. -/
namespace Readahead

def Scanner.forget (s : Scanner) : Scanner := { s with ahead := s.ahead.clear }

def Reader.forget : Reader → Reader
  | .script s => .script s
  | .scanner s below => .scanner s.forget below.forget
  | .remainder pending below => .remainder pending below.forget

def Reply.forget (r : Reply) : Reply := { r with reader := r.reader.forget }

theorem clearTwice (ahead : Ahead) : ahead.clear.clear = ahead.clear := by
  cases ahead <;> rfl

theorem deliverForgets (s : Scanner) (n : Nat) (heard : Option Answer) :
    s.forget.deliver n heard = ((s.deliver n heard).1, (s.deliver n heard).2.forget) := by
  unfold Scanner.deliver
  simp only [Scanner.forget, clearTwice]
  split <;> simp only [clearTwice]

namespace Run

variable {σ τ υ α β : Type}

theorem withinThen {f : σ → τ} {g : υ → υ} {r : Run σ α} {next : α → σ → Run υ β}
    {after : α → τ → Run υ β} (later : ∀ result s, after result (f s) = (next result s).within g) :
    (r.within f).andThen after = (r.andThen next).within g := by
  unfold andThen
  simp only [within, later]

theorem withinMap (f : σ → τ) (g : α → β) (r : Run σ α) :
    (r.within f).map g = (r.map g).within f := rfl

end Run

namespace Reader

theorem readForgets (r : Reader) (n : Nat) : r.forget.read n = (r.read n).forget := by
  induction r generalizing n with
  | script s => rfl
  | scanner s below ih =>
    have buffer : s.forget.buffer = s.buffer := rfl
    simp only [forget, read, buffer]
    cases s.buffer.demand n with
    | none => simp only [deliverForgets, Reply.forget, forget]
    | some m => simp only [deliverForgets, ih, Reply.forget, forget]
  | remainder pending below ih =>
    cases pending with
    | nil => simp only [forget, read, ih, Reply.forget]
    | cons b pending => rfl

theorem pullForgets (r : Reader) (n : Nat) : r.forget.pull n = (r.pull n).within forget := by
  simp only [pull, readForgets, Reply.forget, Run.within]

theorem interruptionsForget (r : Reader) : r.forget.interruptions = r.interruptions := by
  induction r with
  | script s => rfl
  | scanner s below ih => exact ih
  | remainder pending below ih => exact ih

theorem heldForget (r : Reader) : r.forget.held = r.held := by
  induction r with
  | script s => rfl
  | scanner s below ih => exact congrArg (s.window.length + ·) ih
  | remainder pending below ih => exact congrArg (pending.length + ·) ih

theorem depthForget (r : Reader) : r.forget.depth = r.depth := by
  induction r with
  | script s => rfl
  | scanner s below ih => exact congrArg (· + 1) ih
  | remainder pending below ih => exact congrArg (· + 1) ih

theorem frontForget (r : Reader) : r.forget.front = r.front := by
  induction r with
  | script s => rfl
  | scanner s below ih => exact congrArg s.buffer.front ih
  | remainder pending below ih => exact congrArg (Front.behind pending) ih

theorem exactlyFromForgets (fuel left : Nat) (got : Bytes) (r : Reader) :
    exactlyFrom fuel left got r.forget = (exactlyFrom fuel left got r).within forget := by
  induction fuel generalizing left got r with
  | zero => rfl
  | succ fuel ih =>
    unfold exactlyFrom
    split
    · rfl
    rw [pullForgets]
    refine Run.withinThen fun answer s => ?_
    cases answer with
    | served bytes =>
      cases bytes with
      | nil => rfl
      | cons b bytes => exact ih _ _ s
    | failed f =>
      simp only
      split
      · exact ih _ _ s
      · rfl

theorem exactlyForgets (n : Nat) (r : Reader) :
    r.forget.exactly n = (r.exactly n).within forget := by
  rw [exactly, interruptionsForget, exactlyFromForgets, exactly]

theorem drainFromForgets (n fuel : Nat) (r : Reader) :
    drainFrom n fuel r.forget = (drainFrom n fuel r).within forget := by
  induction fuel generalizing r with
  | zero => rfl
  | succ fuel ih =>
    unfold drainFrom
    rw [pullForgets]
    refine Run.withinThen fun answer s => ?_
    cases answer with
    | served bytes =>
      cases bytes with
      | nil => rfl
      | cons b bytes =>
        simp only [ih]
        rfl
    | failed f =>
      simp only
      split
      · exact ih s
      · rfl

theorem drainForgets (n : Nat) (r : Reader) : r.forget.drain n = (r.drain n).within forget := by
  rw [drain, heldForget, interruptionsForget, drainFromForgets, drain]

end Reader

namespace Feed

def forget (f : Feed) : Feed := ⟨f.buffer, f.below.forget⟩

theorem refillForgets (n fuel : Nat) (f : Feed) :
    refill n fuel f.forget = (refill n fuel f).within forget := by
  induction fuel generalizing f with
  | zero => rfl
  | succ fuel ih =>
    have buffer : f.forget.buffer = f.buffer := rfl
    have below : f.forget.below = f.below.forget := rfl
    unfold refill
    rw [buffer, below]
    split
    · rw [Reader.pullForgets]
      refine Run.withinThen fun answer s => ?_
      generalize f.buffer.absorb answer = taken
      obtain ⟨buffer, notes⟩ := taken
      exact Run.withinThen (r := Run.noting () ⟨buffer, s⟩ notes) fun _ g => ih g
    · rfl

theorem lackingForgets (n : Nat) (f : Feed) : lacking n f.forget = (lacking n f).within forget := by
  have buffer : f.forget.buffer = f.buffer := rfl
  unfold lacking
  rw [buffer]
  cases f.buffer.phase with
  | flowing => rfl
  | broken kind => rfl
  | ended | spent => simp only; split <;> rfl

theorem gatherForgets (n : Nat) (f : Feed) : f.forget.gather n = (f.gather n).within forget := by
  have buffer : f.forget.buffer = f.buffer := rfl
  have below : f.forget.below = f.below.forget := rfl
  have moved : Feed.mk f.buffer.toFront f.below.forget = forget ⟨f.buffer.toFront, f.below⟩ := rfl
  unfold gather
  rw [buffer, below, Reader.interruptionsForget, moved, refillForgets]
  split
  · rfl
  split
  · rfl
  split
  · rfl
  refine Run.withinThen fun _ g => ?_
  have same : g.forget.buffer = g.buffer := rfl
  rw [same, lackingForgets]
  split <;> rfl

end Feed
end Readahead
