import Readahead.Drain
import Readahead.Query

/-! A session: one stack of readers and the requests made to its top, one after the other. A
request that the top is no reader for is refused and changes nothing. -/
namespace Readahead

inductive Request where
  | ask (query : Query)
  | read (n : Nat)
  | exactly (n : Nat)
  | drain (n : Nat)
  | wrap (grain : Grain) (settings : Settings)
  | inner
  | retire
  | split
  deriving DecidableEq, Repr

inductive Response where
  | found (finding : Finding)
  | read (answer : Answer)
  | exactly (bytes : Except Failure Bytes)
  | drained (drained : Reader.Drained)
  | inner (reader : Option Reader)
  | pending (bytes : Bytes)
  | done
  | refused

structure Outcome where
  response : Response
  top : Reader
  reads : List Exchange
  notes : List Note

namespace Session

def start (grain : Grain) (settings : Settings) (below : Reader) : Reader :=
  .scanner (.fresh grain settings.granted) below

def plain (response : Response) (top : Reader) : Outcome := ⟨response, top, [], []⟩

/- The pulls of a scanner are reads of the reader beneath it, those of a reader are reads of it. -/
def ofQuery (below : Reader) (r : Run Mounted Finding) : Outcome :=
  ⟨.found r.result, .scanner r.state.scanner r.state.below,
    r.trace.filterMap (Event.atDepth below.depth), r.trace.filterMap Event.note?⟩

def ofReads (top : Reader) (r : Run Reader Response) : Outcome :=
  ⟨r.result, r.state, r.trace.filterMap (Event.atDepth top.depth), []⟩

def perform (top : Reader) : Request → Outcome
  | .ask query => match top with
    | .scanner s below => ofQuery below ((Mounted.mk s below).serve query)
    | _ => plain .refused top
  | .read n => ofReads top ((top.pull n).map .read)
  | .exactly n => ofReads top ((top.exactly n).map .exactly)
  | .drain n => ofReads top ((top.drain n).map .drained)
  | .wrap grain settings => plain .done (start grain settings top)
  | .inner => plain (.inner top.below?) top
  | .retire => match top with
    | .scanner s below => plain .done (Mounted.mk s below).retire
    | _ => plain .refused top
  | .split => match top with
    | .remainder pending below => plain (.pending pending) below
    | _ => plain .refused top

def run (top : Reader) : List Request → List Outcome
  | [] => []
  | request :: rest =>
    let outcome := perform top request
    outcome :: run outcome.top rest

end Session
end Readahead
