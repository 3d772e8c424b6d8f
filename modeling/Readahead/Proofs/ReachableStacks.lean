import Readahead.Session
import Readahead.Proofs.QueryYields
import Readahead.Proofs.FrontDelivered

/-! The stacks that a session can come to, over any stream and by any requests. Every one of them is
fit, so whatever holds of fit stacks holds at every point of every session. -/
namespace Readahead

namespace Reader

inductive Step : Reader → List Event → Reader → Prop where
  | pull (r : Reader) (n : Nat) : Step r (r.pull n).trace (r.read n).reader

theorem pullChain (r : Reader) (n : Nat) : Chain Step r (r.pull n).trace (r.pull n).state :=
  Chain.one (.pull r n)

theorem exactlyChain (fuel left : Nat) (got : Bytes) (r : Reader) :
    Chain Step r (exactlyFrom fuel left got r).trace (exactlyFrom fuel left got r).state := by
  induction fuel generalizing left got r with
  | zero => exact .rest r
  | succ fuel ih =>
    unfold exactlyFrom
    split
    · exact .rest r
    rw [Run.andThenTrace, Run.andThenState]
    refine (pullChain r left).append ?_
    split
    · exact .rest _
    · exact ih _ _ _
    · split
      · exact ih _ _ _
      · exact .rest _

theorem drainChain (n fuel : Nat) (r : Reader) :
    Chain Step r (drainFrom n fuel r).trace (drainFrom n fuel r).state := by
  induction fuel generalizing r with
  | zero => exact .rest r
  | succ fuel ih =>
    unfold drainFrom
    rw [Run.andThenTrace, Run.andThenState]
    refine (pullChain r n).append ?_
    split
    · exact .rest _
    · exact ih _
    · split
      · exact ih _
      · exact .rest _

theorem chainFit {r s : Reader} {events : List Event} (chain : Chain Step r events s)
    (fit : r.Fit) : s.Fit :=
  chain.keeps Fit (fun _ _ _ fit step => by cases step; exact readFit fit _) fit

theorem chainMoves {r s : Reader} {events : List Event} (chain : Chain Step r events s)
    (fit : r.Fit) : r.Moves (handed events) s := by
  induction chain with
  | rest r => exact movesStill handedNothing r
  | next head tail ih =>
    cases head with
    | pull n =>
      have first := readMoves (fitSound fit) n
      exact movesSame (movesTwice first (ih (readFit fit n))) fun depth =>
        (handedAppend _ _ depth).symm

end Reader

theorem grantedPositive (settings : Settings) : 0 < settings.granted := by
  unfold Settings.granted
  split
  · exact Nat.succ_pos _
  · exact Nat.pos_of_ne_zero (by assumption)

namespace Session

inductive Reachable : Reader → Prop where
  | stream (s : Script) : Reachable (.script s)
  | performed {top : Reader} (reachable : Reachable top) (request : Request) :
      Reachable (perform top request).top

theorem startFit (grain : Grain) (settings : Settings) {below : Reader} (fit : below.Fit) :
    (start grain settings below).Fit :=
  ⟨freshFit grain (grantedPositive settings), fit⟩

theorem performFit {top : Reader} (fit : top.Fit) (request : Request) :
    (perform top request).top.Fit := by
  cases request with
  | ask query =>
    cases top with
    | scanner s below =>
      have yields := Mounted.serveYields (m := ⟨s, below⟩) ⟨fit.1, fit.2⟩ query
      exact ⟨yields.fit.scanner, yields.fit.below⟩
    | script s => exact fit
    | remainder pending below => exact fit
  | read n => exact readFit fit n
  | exactly n => exact Reader.chainFit (Reader.exactlyChain _ _ _ top) fit
  | drain n => exact Reader.chainFit (Reader.drainChain _ _ top) fit
  | wrap grain settings => exact startFit grain settings fit
  | inner => exact fit
  | retire =>
    cases top with
    | scanner s below => exact fit.2
    | script s => exact fit
    | remainder pending below => exact fit
  | split =>
    cases top with
    | scanner s below => exact fit
    | script s => exact fit
    | remainder pending below => exact fit

theorem reachableFit {top : Reader} (reachable : Reachable top) : top.Fit := by
  induction reachable with
  | stream s => trivial
  | performed reachable request ih => exact performFit ih request

theorem reachableStart {below : Reader} (reachable : Reachable below) (grain : Grain)
    (settings : Settings) : Reachable (start grain settings below) :=
  .performed reachable (.wrap grain settings)

end Session
end Readahead
