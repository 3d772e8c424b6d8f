import Readahead.Proofs.NothingLost

/-! The layers of a stack, each with all that is beneath it. Whatever is asked of the top, a layer
further down is only read, so at any time it is a stack that a session can come to by itself, and
what holds of the top of every session holds of the layers. -/
namespace Readahead

namespace Reader

def layers : Reader → List Reader
  | .script s => [.script s]
  | .scanner s below => .scanner s below :: below.layers
  | .remainder pending below => .remainder pending below :: below.layers

def capacities : Reader → List Nat
  | .script _ => []
  | .scanner s below => s.capacity :: below.capacities
  | .remainder _ below => below.capacities

theorem topLayer (r : Reader) : r ∈ r.layers := by
  cases r <;> exact List.mem_cons_self

theorem readCapacities (r : Reader) (n : Nat) : (r.read n).reader.capacities = r.capacities := by
  induction r generalizing n with
  | script s => rfl
  | scanner s below ih =>
    unfold read
    cases s.buffer.demand n with
    | none => exact congrArg (· :: below.capacities) (deliverCapacity s n none)
    | some more => exact List.cons_eq_cons.mpr ⟨deliverCapacity s n _, ih more⟩
  | remainder pending below ih =>
    cases pending with
    | nil => exact ih n
    | cons b pending => rfl

section Kept

variable {kept : Reader → Prop} (each : ∀ r n, kept r → kept (r.read n).reader)
  {events : List Event}

include each

theorem chainKept {r s : Reader} (chain : Chain Step r events s) (held : kept r) : kept s :=
  chain.keeps kept (fun r _ _ held step => by cases step with | pull n => exact each r n held) held

theorem actsKept {m k : Mounted} (chain : Chain Mounted.Act m events k) (held : kept m.below) :
    kept k.below := by
  refine chain.keeps (fun m => kept m.below) (fun m k events held act => ?_) held
  have once := Mounted.actOnce act
  generalize k.below = below at once
  cases once with
  | alone notes => exact held
  | read n notes => exact each _ n held

end Kept

theorem readsCapacities (r s : Reader) (n : Nat) (same : s.capacities = r.capacities) :
    (s.read n).reader.capacities = r.capacities := (readCapacities s n).trans same

theorem chainCapacities {r s : Reader} {events : List Event} (chain : Chain Step r events s) :
    s.capacities = r.capacities := chainKept (readsCapacities r) chain rfl

end Reader

namespace Session

def Layered (r : Reader) : Prop := ∀ layer ∈ r.layers, Reachable layer

theorem layeredScanner {s : Scanner} {below : Reader} (top : Reachable (.scanner s below))
    (beneath : Layered below) : Layered (.scanner s below) :=
  List.forall_mem_cons.mpr ⟨top, beneath⟩

theorem layeredRemainder {pending : Bytes} {below : Reader}
    (top : Reachable (.remainder pending below)) (beneath : Layered below) :
    Layered (.remainder pending below) :=
  List.forall_mem_cons.mpr ⟨top, beneath⟩

theorem layeredBelow {r below : Reader} (layered : Layered r) (under : r.below? = some below) :
    Layered below := by
  cases r with
  | script s => contradiction
  | scanner s left | remainder pending left =>
    cases Option.some.inj under
    exact (List.forall_mem_cons.mp layered).2

theorem layeredRead (r : Reader) (n : Nat) (layered : Layered r) : Layered (r.read n).reader := by
  -- A read of the whole is a request to it, and beneath it is at most one read more.
  induction r generalizing n with
  | script s => exact List.forall_mem_singleton.mpr (.stream _)
  | scanner s below ih =>
    have top : Reachable ((Reader.scanner s below).read n).reader :=
      .performed (layered _ (Reader.topLayer _)) (.read n)
    have beneath := layeredBelow layered rfl
    unfold Reader.read at top ⊢
    cases asked : s.buffer.demand n with
    | none =>
      rw [asked] at top
      exact layeredScanner top beneath
    | some more =>
      rw [asked] at top
      exact layeredScanner top (ih more beneath)
  | remainder pending below ih =>
    have top : Reachable ((Reader.remainder pending below).read n).reader :=
      .performed (layered _ (Reader.topLayer _)) (.read n)
    have beneath := layeredBelow layered rfl
    cases pending with
    | nil => exact layeredRemainder top (ih n beneath)
    | cons b pending => exact layeredRemainder top beneath

theorem performLayered {top : Reader} (layered : Layered top) (request : Request) :
    Layered (perform top request).top := by
  have whole := layered _ (Reader.topLayer top)
  have further : Reachable (perform top request).top := .performed whole request
  cases request with
  | ask query =>
    cases top with
    | scanner s below =>
      have fit := Mounted.readerFit (m := ⟨s, below⟩) (reachableFit whole)
      exact layeredScanner further
        (Reader.actsKept layeredRead (Mounted.serveActs fit query) (layeredBelow layered rfl))
    | script s | remainder pending below => exact layered
  | read n => exact layeredRead top n layered
  | exactly n => exact Reader.chainKept layeredRead (Reader.exactlyChain _ _ _ top) layered
  | drain n => exact Reader.chainKept layeredRead (Reader.drainChain _ _ top) layered
  | wrap grain settings => exact layeredScanner further layered
  | inner => exact layered
  | retire =>
    cases top with
    | scanner s below => exact layeredRemainder further (layeredBelow layered rfl)
    | script s | remainder pending below => exact layered
  | split =>
    cases top with
    | remainder pending below => exact layeredBelow layered rfl
    | script s | scanner s below => exact layered

theorem reachableLayered {top : Reader} (reachable : Reachable top) : Layered top := by
  induction reachable with
  | stream s => exact List.forall_mem_singleton.mpr (.stream s)
  | performed reachable request ih => exact performLayered ih request

def granted (top : Reader) : Request → List Nat
  | .wrap _ settings => settings.granted :: top.capacities
  | .retire => match top with
    | .scanner _ below => below.capacities
    | _ => top.capacities
  | _ => top.capacities

theorem actsCapacities {m k : Mounted} {events : List Event} (fit : m.Fit)
    (chain : Chain Mounted.Act m events k) : k.reader.capacities = m.reader.capacities := by
  have beneath : k.below.capacities = m.below.capacities :=
    Reader.actsKept (Reader.readsCapacities m.below) chain rfl
  exact List.cons_eq_cons.mpr ⟨(Mounted.actsSame fit chain).1, beneath⟩

theorem performCapacities {top : Reader} (fit : top.Fit) (request : Request) :
    (perform top request).top.capacities = granted top request := by
  cases request with
  | ask query =>
    cases top with
    | scanner s below =>
      have mounted : (Mounted.mk s below).Fit := Mounted.readerFit fit
      exact actsCapacities mounted (Mounted.serveActs mounted query)
    | script s | remainder pending below => rfl
  | read n => exact Reader.readCapacities top n
  | exactly n => exact Reader.chainCapacities (Reader.exactlyChain _ _ _ top)
  | drain n => exact Reader.chainCapacities (Reader.drainChain _ _ top)
  | wrap grain settings | inner => rfl
  | retire | split => cases top <;> rfl

end Session
end Readahead
