import Readahead.Proofs.ByteConservation
import Readahead.Proofs.ReadsByFront

/-! What a scanner stands on is not to be seen but for its front. How a stream cuts its bytes into
answers, and how often it interrupts, does not show: over streams that stay at their end every
request is answered from the standing of the stack, and all but those that show a single read or a
reader beneath; two stacks of one standing stay so.

Nor does it show how many layers there are. Over a stack of any height a scanner finds what it finds
over a plain stream of the bytes that the stack will deliver, in one event, and of the same finish.
Requests to the top are meant here, not raw reads, which show how bytes were cut. -/
namespace Readahead

inductive Face where
  | stream
  | leftover
  | scanner (grain : Grain) (capacity : Nat) (progress : Progress)
  deriving DecidableEq, Repr

def Reader.face : Reader → Face
  | .script _ => .stream
  | .scanner s _ => .scanner s.ahead.grain s.capacity s.progress
  | .remainder _ _ => .leftover

namespace Standing

def face : Standing → Face
  | .stream _ => .stream
  | .leftover _ => .leftover
  | .scanner p => .scanner p.grain p.capacity p.progress

def perform (s : Standing) : Request → Response × Standing
  | .ask query => match s with
    | .scanner p => (.found (p.serve query).result, .scanner (p.serve query).left)
    | _ => (.refused, s)
  | .exactly n => (.exactly (s.front.exactly n), s.pass (min n s.front.bytes.length))
  | .drain 0 => (.drained ⟨[], none⟩, s)
  | .drain _ => (.drained s.front.drained, s.pass s.front.bytes.length)
  | .wrap grain settings =>
    (.done, .scanner ⟨grain, settings.granted, s.front, .start, false⟩)
  | .retire => match s with
    | .scanner p => (.done, .leftover p.front)
    | _ => (.refused, s)
  | _ => (.refused, s)

def run (s : Standing) : List Request → List (Response × Face)
  | [] => []
  | request :: rest =>
    let (response, t) := s.perform request
    (response, t.face) :: run t rest

end Standing

theorem faceStanding (r : Reader) : r.face = r.standing.face := by
  cases r <;> rfl

def Finish.tail : Finish → Option Failure
  | .ended => none
  | .failed kind => some (.ofKind kind)

def Front.plain (f : Front) : Script := ⟨Script.unread f.bytes [], none, f.finish.tail⟩

theorem plainFront (f : Front) : f.plain.front = f := by
  have moving : (none : Option Nat) ≠ some 0 := by simp
  have tail : f.finish.tail.elim Finish.ended (fun failure => .failed failure.kind) = f.finish := by
    cases f.finish <;> rfl
  rw [Script.front, Front.plain, Script.unreadFront moving, Script.frontFrom, tail, Front.behind,
    List.append_nil]

namespace Session

/- A request that shows neither what one read gave nor a reader beneath the top. -/
def Blind : Request → Prop
  | .read _ | .inner | .split => False
  | _ => True

def seen (o : Outcome) : Response × Face := (o.response, o.top.face)

structure Tells (o : Outcome) (told : Response × Standing) : Prop where
  response : o.response = told.1
  standing : o.top.standing = told.2
  steady : o.top.Steady

theorem askStanding {top : Reader} (fit : top.Fit) (query : Query) :
    (perform top (.ask query)).response = (top.standing.perform (.ask query)).1 ∧
      (perform top (.ask query)).top.standing = (top.standing.perform (.ask query)).2 := by
  cases top with
  | scanner s below =>
    have yields := Mounted.serveYields (m := ⟨s, below⟩) ⟨fit.1, fit.2⟩ query
    exact ⟨congrArg Response.found yields.result, congrArg Standing.scanner yields.left⟩
  | script s => exact ⟨rfl, rfl⟩
  | remainder pending below => exact ⟨rfl, rfl⟩

theorem askTells {top : Reader} (fit : top.Fit) (steady : top.Steady) (query : Query) :
    Tells (perform top (.ask query)) (top.standing.perform (.ask query)) := by
  obtain ⟨response, standing⟩ := askStanding fit query
  refine ⟨response, standing, ?_⟩
  cases top with
  | scanner s below =>
    exact (Mounted.serveYields (m := ⟨s, below⟩) ⟨fit.1, fit.2⟩ query).steady steady
  | script s => exact steady
  | remainder pending below => exact steady

theorem exactlyTells {top : Reader} (fit : top.Fit) (steady : top.Steady) (n : Nat) :
    Tells (perform top (.exactly n)) (top.standing.perform (.exactly n)) := by
  obtain ⟨result, passes⟩ := Reader.exactlyTells fit steady n
  rw [← standingFront] at result passes
  exact ⟨congrArg Response.exactly result, passes.standing, passes.steady⟩

theorem drainTells {top : Reader} (fit : top.Fit) (steady : top.Steady) (n : Nat) :
    Tells (perform top (.drain n)) (top.standing.perform (.drain n)) := by
  cases n with
  | zero =>
    obtain ⟨result, passes⟩ := Reader.drainNothing fit steady
    exact ⟨congrArg Response.drained result,
      passes.standing.trans (Standing.passNothing _), passes.steady⟩
  | succ n =>
    obtain ⟨result, passes⟩ := Reader.drainTells fit steady (Nat.succ_pos n)
    rw [← standingFront] at result passes
    exact ⟨congrArg Response.drained result, passes.standing, passes.steady⟩

theorem startStanding (grain : Grain) (settings : Settings) (below : Reader) :
    (start grain settings below).standing =
      .scanner ⟨grain, settings.granted, below.front, .start, false⟩ :=
  congrArg Standing.scanner (Mounted.freshProspect grain settings.granted below)

theorem wrapTells {top : Reader} (steady : top.Steady) (grain : Grain) (settings : Settings) :
    Tells (perform top (.wrap grain settings)) (top.standing.perform (.wrap grain settings)) := by
  refine ⟨rfl, ?_, trivial, steady⟩
  rw [Standing.perform, standingFront]
  exact startStanding grain settings top

theorem retireTells {top : Reader} (steady : top.Steady) :
    Tells (perform top .retire) (top.standing.perform .retire) := by
  cases top with
  | scanner s below =>
    have front := agreesFront steady.1
    exact ⟨rfl, congrArg Standing.leftover front.symm, steady.2⟩
  | script s => exact ⟨rfl, rfl, steady⟩
  | remainder pending below => exact ⟨rfl, rfl, steady⟩

theorem performTells {top : Reader} (fit : top.Fit) (steady : top.Steady) {request : Request}
    (blind : Blind request) : Tells (perform top request) (top.standing.perform request) := by
  cases request with
  | ask query => exact askTells fit steady query
  | exactly n => exact exactlyTells fit steady n
  | drain n => exact drainTells fit steady n
  | wrap grain settings => exact wrapTells steady grain settings
  | retire => exact retireTells steady
  | read n => exact blind.elim
  | inner => exact blind.elim
  | split => exact blind.elim

theorem runTells {top : Reader} (fit : top.Fit) (steady : top.Steady) {requests : List Request}
    (blind : ∀ request ∈ requests, Blind request) :
    (run top requests).map seen = top.standing.run requests := by
  induction requests generalizing top with
  | nil => rfl
  | cons request rest ih =>
    have first := performTells fit steady (blind request List.mem_cons_self)
    have later := ih (performFit fit request) first.steady fun other member =>
      blind other (List.mem_cons_of_mem _ member)
    rw [run, List.map_cons, later, Standing.run, seen, faceStanding, first.response, first.standing]

theorem queriesTell {top : Reader} (fit : top.Fit) (queries : List Query) :
    (run top (queries.map .ask)).map seen = top.standing.run (queries.map .ask) := by
  induction queries generalizing top with
  | nil => rfl
  | cons query rest ih =>
    obtain ⟨response, standing⟩ := askStanding fit query
    have later := ih (performFit fit (.ask query))
    simp only [List.map_cons, run, Standing.run]
    rw [later, seen, faceStanding, response, standing]

theorem cutsUnseen {first second : Script} (steady : first.Steady) (steady' : second.Steady)
    (payload : first.payload = second.payload) (tail : first.tail = second.tail) (grain : Grain)
    (settings : Settings) {requests : List Request} (blind : ∀ request ∈ requests, Blind request) :
    (run (start grain settings (.script first)) requests).map seen =
      (run (start grain settings (.script second)) requests).map seen := by
  have finish : first.finish = second.finish := by rw [Script.finish, tail, Script.finish]
  have front : (Reader.script first).front = (Reader.script second).front := by
    rw [Reader.front, Reader.front, Script.steadyFront steady, Script.steadyFront steady', payload,
      finish]
  have standing : (start grain settings (.script first)).standing =
      (start grain settings (.script second)).standing := by
    rw [startStanding, startStanding, front]
  have fit : ∀ s, (start grain settings (.script s)).Fit := fun s =>
    reachableFit (reachableStart (.stream s) grain settings)
  rw [runTells (fit first) ⟨trivial, steady⟩ blind, runTells (fit second) ⟨trivial, steady'⟩ blind,
    standing]

theorem cutsUnseenDivided :
    Script.divided.Steady ∧
      Script.Steady ⟨[.data [0xC3, 0xA9, 0xE2]], none, some (.ofKind .brokenPipe)⟩ ∧
      (∀ request ∈ [.ask .next, .wrap .bytes ⟨2⟩, .exactly 1, .retire, .drain 3], Blind request) ∧
      (run (start .scalars ⟨4⟩ (.script .divided))
          [.ask .next, .wrap .bytes ⟨2⟩, .exactly 1, .retire, .drain 3]).map seen =
        (run (start .scalars ⟨4⟩
            (.script ⟨[.data [0xC3, 0xA9, 0xE2]], none, some (.ofKind .brokenPipe)⟩))
          [.ask .next, .wrap .bytes ⟨2⟩, .exactly 1, .retire, .drain 3]).map seen :=
  have steady : Script.divided.Steady :=
    ⟨by decide, by simp [Script.divided, ScriptEvent.Mild, Failure.Passing, Failure.ofKind],
      by simp [Script.divided, Failure.Passing, Failure.ofKind]⟩
  have whole : Script.Steady ⟨[.data [0xC3, 0xA9, 0xE2]], none, some (.ofKind .brokenPipe)⟩ :=
    ⟨by decide, by simp [ScriptEvent.Mild], by simp [Failure.Passing, Failure.ofKind]⟩
  have blind : ∀ request ∈ [.ask .next, .wrap .bytes ⟨2⟩, .exactly 1, .retire, .drain 3],
      Blind request := by simp [Blind]
  ⟨steady, whole, blind, cutsUnseen steady whole rfl rfl .scalars ⟨4⟩ blind⟩

/- The stack below is in any state, with windows and leftovers half consumed on every layer. -/
theorem layersUnseen {below : Reader} (reachable : Reachable below)
    (patient : below.front.finish ≠ .failed .interrupted) (grain : Grain) (settings : Settings)
    (queries : List Query) :
    below.Delivers below.front ∧
      (run (start grain settings below) (queries.map .ask)).map seen =
        (run (start grain settings (.script below.front.plain)) (queries.map .ask)).map seen := by
  refine ⟨frontDelivered (reachableFit reachable) patient, ?_⟩
  have stacked := reachableFit (reachableStart reachable grain settings)
  have bare := reachableFit (reachableStart (.stream below.front.plain) grain settings)
  rw [queriesTell stacked, queriesTell bare, startStanding, startStanding, Reader.front, plainFront]

def halfway : Reader :=
  last (start .bytes ⟨2⟩ (.script .divided)) [.ask (.peekAt 2), .ask .next]

theorem layersUnseenHalfway :
    Reachable halfway ∧ halfway.front.finish ≠ .failed .interrupted ∧
      halfway.Delivers halfway.front ∧
      (run (start .scalars ⟨4⟩ halfway) [.ask .peek, .ask .next, .ask (.look 2)]).map seen =
        (run (start .scalars ⟨4⟩ (.script halfway.front.plain))
          [.ask .peek, .ask .next, .ask (.look 2)]).map seen :=
  have reachable : Reachable halfway :=
    .performed (.performed (reachableStart (.stream _) _ _) _) _
  have patient : halfway.front.finish ≠ .failed .interrupted := by decide
  ⟨reachable, patient, layersUnseen reachable patient .scalars ⟨4⟩ [.peek, .next, .look 2]⟩

end Session
end Readahead
