import Readahead.Proofs.TakenBytes

/-! No byte is lost, repeated or moved out of its place. What the stream has served is what the
caller took and then what the layers still hold, the top first. So it is for every layer since it
was put there: what it was handed is what it handed up and then what it holds, and a scanner's
offset counts what it handed up. -/
namespace Readahead

def Reader.buffered : Reader → Bytes
  | .script _ => []
  | .scanner s below => s.window ++ below.buffered
  | .remainder pending below => pending ++ below.buffered

/- What a layer was handed and what it handed up, since it was put there. -/
structure Account where
  received : Bytes
  given : Bytes
  deriving DecidableEq, Repr

def Account.opened : Account := ⟨[], []⟩

def post (hand : Nat → Bytes) : List Account → List Account
  | [] => []
  | account :: accounts =>
    ⟨account.received ++ hand 1, account.given ++ hand 0⟩ ::
      post (fun depth => hand (depth + 1)) accounts

inductive Balanced : Reader → List Account → Prop where
  | script (s : Script) : Balanced (.script s) []
  | scanner {s : Scanner} {below : Reader} {account : Account} {accounts : List Account}
      (bytes : account.received = account.given ++ s.window)
      (offset : s.place.offset = account.given.length)
      (beneath : Balanced below accounts) : Balanced (.scanner s below) (account :: accounts)
  | remainder {pending : Bytes} {below : Reader} {account : Account} {accounts : List Account}
      (bytes : account.received = account.given ++ pending)
      (beneath : Balanced below accounts) :
      Balanced (.remainder pending below) (account :: accounts)

theorem postBalanced {hand : Nat → Bytes} {before after : Reader} {accounts : List Account}
    (moves : before.Moves hand after) (balanced : Balanced before accounts) :
    Balanced after (post hand accounts) := by
  induction moves generalizing accounts with
  | script hand s t =>
    cases balanced
    exact .script t
  | scanner bytes offset beneath ih =>
    cases balanced with
    | scanner held counted below =>
      refine .scanner ?_ ?_ (ih below)
      · rw [held, List.append_assoc, bytes, List.append_assoc]
      · rw [offset, counted, List.length_append]
  | remainder bytes beneath ih =>
    cases balanced with
    | remainder held below =>
      refine .remainder ?_ (ih below)
      rw [held, List.append_assoc, bytes, List.append_assoc]

theorem movesBuffered {hand : Nat → Bytes} {before after : Reader}
    (moves : before.Moves hand after) :
    before.buffered ++ hand before.depth = hand 0 ++ after.buffered := by
  induction moves with
  | script hand s t => exact (List.append_nil _).symm
  | scanner bytes offset beneath ih =>
    simp only [Reader.buffered, Reader.depth, List.append_assoc] at ih ⊢
    rw [ih, ← List.append_assoc, bytes, List.append_assoc]
  | remainder bytes beneath ih =>
    simp only [Reader.buffered, Reader.depth, List.append_assoc] at ih ⊢
    rw [ih, ← List.append_assoc, bytes, List.append_assoc]

namespace Session

/- The bytes the caller has after a request, as the response tells. Those that were read and lost
when too few came are told by no response. -/
def takes (top : Reader) : Request → Response → Bytes
  | .ask query, .found finding => match top with
    | .scanner s below => (Mounted.mk s below).takes query finding
    | _ => []
  | .read _, .read answer => answer.bytes
  | .exactly _, .exactly (.ok bytes) => bytes
  | .exactly n, .exactly (.error _) => handed (top.exactly n).trace 0
  | .drain _, .drained drained => drained.bytes
  | .split, .pending bytes => bytes
  | _, _ => []

def beneath (top : Reader) : Request → Nat → Bytes
  | .ask query => match top with
    | .scanner s below => handed ((Mounted.mk s below).serve query).trace
    | _ => fun _ => []
  | .read n => fun depth => handed (top.pull n).trace (depth + 1)
  | .exactly n => fun depth => handed (top.exactly n).trace (depth + 1)
  | .drain n => fun depth => handed (top.drain n).trace (depth + 1)
  | _ => fun _ => []

def hand (top : Reader) (request : Request) : Nat → Bytes
  | 0 => takes top request (perform top request).response
  | depth + 1 => beneath top request depth

/- The accounts after a request. A layer that is put on top is given one, and takes it along when
it goes. -/
def keep (top : Reader) (accounts : List Account) (request : Request) : List Account :=
  match request, top with
  | .wrap _ _, _ => .opened :: accounts
  | .split, .remainder _ _ => accounts.tail
  | _, _ => post (hand top request) accounts

def last (top : Reader) : List Request → Reader
  | [] => top
  | request :: rest => last (perform top request).top rest

def served (outcomes : List Outcome) : Bytes :=
  outcomes.flatMap fun o => o.reads.flatMap Exchange.bytes

def taken (top : Reader) : List Request → Bytes
  | [] => []
  | request :: rest => hand top request 0 ++ taken (perform top request).top rest

def books (top : Reader) (accounts : List Account) : List Request → List Account
  | [] => accounts
  | request :: rest => books (perform top request).top (keep top accounts request) rest

theorem runAppend (top : Reader) (earlier later : List Request) :
    run top (earlier ++ later) = run top earlier ++ run (last top earlier) later := by
  induction earlier generalizing top with
  | nil => rfl
  | cons request rest ih => simp only [List.cons_append, run, last, ih]

theorem runLength (top : Reader) (requests : List Request) :
    (run top requests).length = requests.length := by
  induction requests generalizing top with
  | nil => rfl
  | cons request rest ih => simp only [run, List.length_cons, ih]

theorem lastFit {top : Reader} (fit : top.Fit) (requests : List Request) :
    (last top requests).Fit := by
  induction requests generalizing top with
  | nil => exact fit
  | cons request rest ih => exact ih (performFit fit request)

theorem handedReads (events : List Event) (depth : Nat) :
    (events.filterMap (Event.atDepth depth)).flatMap Exchange.bytes = handed events depth := by
  induction events with
  | nil => rfl
  | cons event events ih =>
    rw [handed, List.flatMap_cons, ← handed, ← ih, List.filterMap_cons]
    cases event.atDepth depth <;> rfl

theorem readHand (top : Reader) (n : Nat) : handed (top.pull n).trace = hand top (.read n) := by
  funext depth
  cases depth with
  | zero => exact Reader.pullTaken top n
  | succ depth => rfl

theorem exactlyHand (top : Reader) (n : Nat) :
    handed (top.exactly n).trace = hand top (.exactly n) := by
  funext depth
  cases depth with
  | zero =>
    change _ = takes top (.exactly n) (.exactly (top.exactly n).result)
    cases result : (top.exactly n).result with
    | ok bytes => exact (Reader.exactlyFromTaken result).symm
    | error f => rfl
  | succ depth => rfl

theorem drainHand (top : Reader) (n : Nat) : handed (top.drain n).trace = hand top (.drain n) := by
  funext depth
  cases depth with
  | zero => exact Reader.drainFromTaken n _ top
  | succ depth => rfl

theorem readsHanded (top : Reader) (request : Request) :
    (perform top request).reads.flatMap Exchange.bytes = hand top request top.depth := by
  cases request with
  | ask query =>
    cases top with
    | scanner s below => exact handedReads _ below.depth
    | script s => rfl
    | remainder pending below => rfl
  | read n =>
    rw [← readHand]
    exact handedReads _ top.depth
  | exactly n =>
    rw [← exactlyHand]
    exact handedReads _ top.depth
  | drain n =>
    rw [← drainHand]
    exact handedReads _ top.depth
  | wrap grain settings => cases top <;> rfl
  | inner => cases top <;> rfl
  | retire => cases top <;> rfl
  | split => cases top <;> rfl

def Still (top : Reader) (request : Request) : Prop :=
  top.Moves (hand top request) (perform top request).top

theorem askStill {top : Reader} (fit : top.Fit) (query : Query) : Still top (.ask query) := by
  cases top with
  | scanner s below =>
    have mounted : (Mounted.mk s below).Fit := ⟨fit.1, fit.2⟩
    have yields := Mounted.serveYields mounted query
    have moves := yields.moves
    rw [← Mounted.takesTurn mounted query] at moves
    refine Reader.movesSame moves fun depth => ?_
    cases depth <;> rfl
  | script s => exact Reader.movesStill (fun depth => by cases depth <;> rfl) _
  | remainder pending below => exact Reader.movesStill (fun depth => by cases depth <;> rfl) _

theorem readStill {top : Reader} (fit : top.Fit) (n : Nat) : Still top (.read n) := by
  rw [Still, ← readHand]
  exact Reader.chainMoves (Reader.pullChain top n) fit

theorem exactlyStill {top : Reader} (fit : top.Fit) (n : Nat) : Still top (.exactly n) := by
  rw [Still, ← exactlyHand]
  exact Reader.chainMoves (Reader.exactlyChain _ _ _ top) fit

theorem drainStill {top : Reader} (fit : top.Fit) (n : Nat) : Still top (.drain n) := by
  rw [Still, ← drainHand]
  exact Reader.chainMoves (Reader.drainChain _ _ top) fit

theorem startBuffered (grain : Grain) (settings : Settings) (below : Reader) :
    (start grain settings below).buffered = below.buffered := by
  change (Buffer.fresh settings.granted).window ++ below.buffered = _
  rw [Buffer.freshWindow, List.nil_append]

def Idle (top : Reader) : Request → Prop
  | .wrap _ _ => True
  | .inner => True
  | .retire => True
  | .split => match top with
    | .remainder _ _ => False
    | _ => True
  | _ => False

theorem idleHand (top : Reader) (request : Request) (idle : Idle top request) (depth : Nat) :
    hand top request depth = [] := by
  cases request with
  | ask query => exact idle.elim
  | read n => exact idle.elim
  | exactly n => exact idle.elim
  | drain n => exact idle.elim
  | wrap grain settings => cases depth <;> rfl
  | inner => cases depth <;> rfl
  | retire => cases depth <;> cases top <;> rfl
  | split =>
    cases top with
    | remainder pending below => exact idle.elim
    | script s => cases depth <;> rfl
    | scanner s below => cases depth <;> rfl

theorem performBuffered {top : Reader} (fit : top.Fit) (request : Request) :
    top.buffered ++ hand top request top.depth =
      hand top request 0 ++ (perform top request).top.buffered := by
  cases request with
  | ask query => exact movesBuffered (askStill fit query)
  | read n => exact movesBuffered (readStill fit n)
  | exactly n => exact movesBuffered (exactlyStill fit n)
  | drain n => exact movesBuffered (drainStill fit n)
  | wrap grain settings =>
    have idle := idleHand top (.wrap grain settings) trivial
    rw [idle, idle, List.append_nil]
    exact (startBuffered grain settings top).symm
  | inner =>
    have idle := idleHand top .inner trivial
    rw [idle, idle, List.append_nil]
    rfl
  | retire =>
    have idle := idleHand top .retire trivial
    rw [idle, idle, List.append_nil]
    cases top <;> rfl
  | split => cases top <;> exact List.append_nil _

theorem startBalanced (grain : Grain) (settings : Settings) {below : Reader}
    {accounts : List Account} (balanced : Balanced below accounts) :
    Balanced (start grain settings below) (.opened :: accounts) :=
  .scanner (Buffer.freshWindow settings.granted).symm rfl balanced

theorem postNothing {hand : Nat → Bytes} (nothing : ∀ depth, hand depth = [])
    (accounts : List Account) : post hand accounts = accounts := by
  induction accounts generalizing hand with
  | nil => rfl
  | cons account accounts ih =>
    rw [post, nothing, nothing, ih fun depth => nothing (depth + 1), List.append_nil,
      List.append_nil]

theorem performBalanced {top : Reader} {accounts : List Account} (fit : top.Fit)
    (balanced : Balanced top accounts) (request : Request) :
    Balanced (perform top request).top (keep top accounts request) := by
  cases request with
  | ask query => exact postBalanced (askStill fit query) balanced
  | read n => exact postBalanced (readStill fit n) balanced
  | exactly n => exact postBalanced (exactlyStill fit n) balanced
  | drain n => exact postBalanced (drainStill fit n) balanced
  | wrap grain settings => exact startBalanced grain settings balanced
  | inner =>
    have kept : keep top accounts .inner = accounts :=
      postNothing (idleHand top .inner trivial) accounts
    rw [kept]
    exact balanced
  | retire =>
    have kept : keep top accounts .retire = accounts :=
      postNothing (idleHand top .retire trivial) accounts
    rw [kept]
    cases balanced with
    | scanner bytes offset beneath => exact .remainder bytes beneath
    | script s => exact .script s
    | remainder bytes beneath => exact .remainder bytes beneath
  | split =>
    cases balanced with
    | remainder bytes beneath => exact beneath
    | script s => exact .script s
    | @scanner s below account accounts bytes offset beneath =>
      have kept : keep (.scanner s below) (account :: accounts) .split = account :: accounts :=
        postNothing (idleHand (.scanner s below) .split trivial) _
      rw [kept]
      exact .scanner bytes offset beneath

theorem lastBuffered {top : Reader} (fit : top.Fit) (requests : List Request) :
    top.buffered ++ served (run top requests) =
      taken top requests ++ (last top requests).buffered := by
  induction requests generalizing top with
  | nil => exact List.append_nil _
  | cons request rest ih =>
    have later := ih (performFit fit request)
    have first := performBuffered fit request
    rw [← readsHanded] at first
    simp only [run, served, List.flatMap_cons, taken, last] at later ⊢
    rw [← List.append_assoc, first, List.append_assoc, later, List.append_assoc]

theorem booksBalanced {top : Reader} {accounts : List Account} (fit : top.Fit)
    (balanced : Balanced top accounts) (requests : List Request) :
    Balanced (last top requests) (books top accounts requests) := by
  induction requests generalizing top accounts with
  | nil => exact balanced
  | cons request rest ih => exact ih (performFit fit request) (performBalanced fit balanced request)

def Wraps : Request → Prop
  | .wrap _ _ => True
  | _ => False

theorem movesDepth {hand : Nat → Bytes} {before after : Reader} (moves : before.Moves hand after) :
    after.depth = before.depth := by
  induction moves with
  | script hand s t => rfl
  | scanner bytes offset beneath ih => exact congrArg Nat.succ ih
  | remainder bytes beneath ih => exact congrArg Nat.succ ih

theorem keepLone {top : Reader} (accounts : List Account) (fit : top.Fit) {request : Request}
    (bare : ¬Wraps request) : (perform top request).top.depth < top.depth ∨
      (perform top request).top.depth = top.depth ∧
        keep top accounts request = post (hand top request) accounts := by
  cases request with
  | ask query => exact .inr ⟨movesDepth (askStill fit query), rfl⟩
  | read n => exact .inr ⟨movesDepth (readStill fit n), rfl⟩
  | exactly n => exact .inr ⟨movesDepth (exactlyStill fit n), rfl⟩
  | drain n => exact .inr ⟨movesDepth (drainStill fit n), rfl⟩
  | wrap grain settings => exact absurd trivial bare
  | inner => exact .inr ⟨rfl, rfl⟩
  | retire => cases top <;> exact .inr ⟨rfl, rfl⟩
  | split =>
    cases top with
    | remainder pending below => exact .inl (Nat.lt_succ_self _)
    | script s => exact .inr ⟨rfl, rfl⟩
    | scanner s below => exact .inr ⟨rfl, rfl⟩

theorem lastDepth {top : Reader} (fit : top.Fit) {requests : List Request}
    (bare : ∀ request ∈ requests, ¬Wraps request) : (last top requests).depth ≤ top.depth := by
  induction requests generalizing top with
  | nil => exact Nat.le_refl _
  | cons request rest ih =>
    have later := ih (performFit fit request) fun q member => bare q (List.mem_cons_of_mem _ member)
    rcases keepLone [] fit (bare request List.mem_cons_self) with less | ⟨same, _⟩
    · exact Nat.le_trans later (Nat.le_of_lt less)
    · rw [← same]
      exact later

theorem booksLone {top : Reader} {account : Account} (fit : top.Fit) (one : top.depth = 1)
    {requests : List Request} (bare : ∀ request ∈ requests, ¬Wraps request)
    (stands : (last top requests).depth = 1) :
    books top [account] requests = [⟨account.received ++ served (run top requests),
      account.given ++ taken top requests⟩] := by
  induction requests generalizing top account with
  | nil => simp [books, run, served, taken]
  | cons request rest ih =>
    have later := fun q member => bare q (List.mem_cons_of_mem _ member)
    have deep := lastDepth (performFit fit request) later
    rcases keepLone [account] fit (bare request List.mem_cons_self) with
      less | ⟨same, kept⟩
    · -- The layer is gone for good, since nothing is wrapped any more.
      simp only [last] at stands
      omega
    · have reads := readsHanded top request
      rw [one] at reads
      rw [books, kept, post, post, ih (performFit fit request) (same.trans one) later stands]
      simp only [run, served, List.flatMap_cons, taken, reads, List.append_assoc]

theorem sessionConserves (grain : Grain) (settings : Settings) (s : Script)
    (requests : List Request) :
    let top := start grain settings (.script s)
    served (run top requests) = taken top requests ++ (last top requests).buffered ∧
      Balanced (last top requests) (books top [.opened] requests) ∧
      ((∀ request ∈ requests, ¬Wraps request) → ∀ t below,
        last top requests = .scanner t below → t.place.offset = (taken top requests).length) := by
  intro top
  have fit : top.Fit := reachableFit (reachableStart (.stream s) grain settings)
  have balanced := booksBalanced fit (startBalanced grain settings (.script s)) requests
  refine ⟨?_, balanced, fun bare t below stands => ?_⟩
  · have whole := lastBuffered fit requests
    rw [startBuffered] at whole
    exact whole
  · have deep := lastDepth fit bare
    rw [stands] at deep balanced
    have one : (Reader.scanner t below).depth = 1 :=
      Nat.le_antisymm deep (Nat.succ_le_succ (Nat.zero_le _))
    rw [booksLone fit rfl bare (by rw [stands]; exact one)] at balanced
    cases balanced with
    | scanner bytes offset beneath => exact offset

end Session
end Readahead
