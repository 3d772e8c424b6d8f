import Mathlib.Data.List.DropRight
import Readahead.Proofs.ByteConservation
import Readahead.Proofs.LineTracking
import Readahead.Proofs.ReadsByFront

/-! Where a scanner stands is told by what it consumed, item by item, and by the bytes that raw reads
took away in between, however the items were grouped in requests. An item belongs to the line it was
consumed on; what a raw read takes belongs to none. -/
namespace Readahead

def Item.breaks (i : Item) : Bool := i.code == 10

inductive Passage where
  | item (item : Item)
  | raw (bytes : Bytes)
  deriving DecidableEq, Repr

namespace Passage

def item? : Passage → Option Item
  | .item i => some i
  | .raw _ => none

def bytes : Passage → Bytes
  | .item i => i.spelling
  | .raw gone => gone

end Passage

def items (passages : List Passage) : List Item := passages.filterMap Passage.item?

def sinceBreak (items : List Item) : List Item := items.rtakeWhile fun item => !item.breaks

theorem itemsAppend (first later : List Passage) :
    items (first ++ later) = items first ++ items later := List.filterMap_append

theorem itemsItem (passages : List Passage) (item : Item) :
    items (passages ++ [.item item]) = items passages ++ [item] := itemsAppend _ _

theorem itemsRaw (passages : List Passage) (bytes : Bytes) :
    items (passages ++ [.raw bytes]) = items passages :=
  (itemsAppend _ _).trans (List.append_nil _)

theorem itemsAll (all : List Item) : items (all.map .item) = all := by
  rw [items, List.filterMap_map]
  exact List.filterMap_some

namespace Session

def Own : Request → Prop
  | .wrap _ _ | .retire => False
  | _ => True

def passages (top : Reader) (request : Request) (response : Response) : List Passage :=
  match top, request, response with
  | .scanner s below, .ask query, .found finding =>
    ((Mounted.mk s below).consumed query finding).map .item
  | _, _, _ => [.raw (takes top request response)]

def history (top : Reader) : List Request → List Passage
  | [] => []
  | request :: rest => passages top request (perform top request).response ++
      history (perform top request).top rest

end Session

namespace Progress

def along (p : Progress) (passages : List Passage) : Progress :=
  passages.foldl (fun p passage => match passage with
    | .item item => p.move item.spelling
    | .raw bytes => p.pass bytes.length) p

/-- How far a scanner has come after these passages: the breaks among the items count the lines, the
items since the last of them are the columns and the text of the line. -/
structure Tells (p : Progress) (passages : List Passage) : Prop where
  line : p.place.line = 1 + (items passages).countP Item.breaks
  column : p.place.column = 1 + (sinceBreak (items passages)).length
  bytes : p.line = (sinceBreak (items passages)).flatMap Item.spelling
  offset : p.place.offset = (passages.flatMap Passage.bytes).length

theorem breaksSpelled (item : Item) : item.breaks = true ↔ item.spelling = [lineBreak] := by
  cases item with
  | byte b =>
    simp only [Item.breaks, Item.code, Item.spelling, beq_iff_eq, List.singleton_inj,
      ← UInt8.toNat_inj, lineBreak]
    rfl
  | scalar c =>
    rw [Item.spelling, Utf8.spellsBreak, Item.breaks, beq_iff_eq, ← Char.toNat_inj]
    rfl

theorem startTells : Progress.start.Tells [] := ⟨rfl, rfl, rfl, rfl⟩

theorem moveTells {p : Progress} {passages : List Passage} (tells : p.Tells passages)
    (item : Item) : (p.move item.spelling).Tells (passages ++ [.item item]) := by
  obtain ⟨line, column, bytes, offset⟩ := tells
  have further : (p.move item.spelling).place.offset =
      ((passages ++ [Passage.item item]).flatMap Passage.bytes).length := by
    rw [moveOffset, offset, List.flatMap_append, List.length_append, List.flatMap_singleton]
    rfl
  cases breaks : item.breaks with
  | true =>
    have moved : p.move item.spelling =
        ⟨⟨p.place.line + 1, 1, p.place.offset + item.spelling.length⟩, []⟩ :=
      if_pos ((breaksSpelled item).mp breaks)
    have since : sinceBreak (items passages ++ [item]) = [] :=
      List.rtakeWhile_concat_neg _ _ _ (by simp [breaks])
    refine ⟨?_, ?_, ?_, further⟩
    · rw [moved, itemsItem, List.countP_append, List.countP_singleton, if_pos breaks, line]
      rfl
    · rw [moved, itemsItem, since]
      rfl
    · rw [moved, itemsItem, since]
      rfl
  | false =>
    have moved : p.move item.spelling =
        ⟨⟨p.place.line, p.place.column + 1, p.place.offset + item.spelling.length⟩,
          p.line ++ item.spelling⟩ :=
      if_neg fun spelled => by simp [(breaksSpelled item).mpr spelled] at breaks
    have since : sinceBreak (items passages ++ [item]) = sinceBreak (items passages) ++ [item] :=
      List.rtakeWhile_concat_pos _ _ _ (by simp [breaks])
    refine ⟨?_, ?_, ?_, further⟩
    · rw [moved, itemsItem, List.countP_append, List.countP_singleton, line, breaks]
      rfl
    · rw [moved, itemsItem, since, List.length_append, ← Nat.add_assoc, ← column]
      rfl
    · rw [moved, itemsItem, since, List.flatMap_append, ← bytes, List.flatMap_singleton]

theorem passTells {p : Progress} {passages : List Passage} (tells : p.Tells passages)
    (bytes : Bytes) : (p.pass bytes.length).Tells (passages ++ [.raw bytes]) := by
  refine ⟨?_, ?_, ?_, ?_⟩
  · rw [itemsRaw]
    exact tells.line
  · rw [itemsRaw]
    exact tells.column
  · rw [itemsRaw]
    exact tells.bytes
  · rw [List.flatMap_append, List.length_append, ← tells.offset, List.flatMap_singleton]
    rfl

theorem alongTells (passages : List Passage) : (Progress.start.along passages).Tells passages := by
  -- From the end of the list, where a line break cuts off all that came before it.
  induction passages using List.reverseRecOn with
  | nil => exact startTells
  | append_singleton passages passage ih =>
    rw [along, List.foldl_append, ← along]
    cases passage with
    | item item => exact moveTells ih item
    | raw bytes => exact passTells ih bytes

theorem alongAppend (p : Progress) (first later : List Passage) :
    p.along (first ++ later) = (p.along first).along later := List.foldl_append

theorem alongItems (p : Progress) (items : List Item) :
    p.along (items.map .item) = p.moveAll (items.map Item.spelling) := by
  rw [along, moveAll, List.foldl_map, List.foldl_map]

theorem passTwice (p : Progress) (first later : Nat) :
    (p.pass first).pass later = p.pass (first + later) := by
  simp only [pass, Nat.add_assoc]

end Progress

namespace Reader

theorem readProgress (s : Scanner) (below : Reader) (n : Nat) :
    ∃ t left, ((Reader.scanner s below).read n).reader = .scanner t left ∧
      t.ahead.grain = s.ahead.grain ∧
      t.progress = s.progress.pass ((Reader.scanner s below).read n).answer.bytes.length := by
  unfold Reader.read
  cases s.buffer.demand n with
  | none => exact ⟨_, _, rfl, deliverGrain s n none, deliverProgress s n none⟩
  | some m => exact ⟨_, _, rfl, deliverGrain s n _, deliverProgress s n _⟩

theorem chainProgress {r last : Reader} {events : List Event} (chain : Chain Step r events last)
    {s : Scanner} {below : Reader} (top : r = .scanner s below) :
    ∃ t left, last = .scanner t left ∧ t.ahead.grain = s.ahead.grain ∧
      t.progress = s.progress.pass (handed events 0).length := by
  induction chain generalizing s below with
  | rest r => exact ⟨s, below, top, rfl, rfl⟩
  | next head tail ih =>
    cases head with
    | pull n =>
      subst top
      obtain ⟨t, left, next, grain, progress⟩ := readProgress s below n
      obtain ⟨u, further, final, later, rest⟩ := ih next
      refine ⟨u, further, final, later.trans grain, ?_⟩
      rw [rest, progress, Progress.passTwice, handedAppend, List.length_append, pullTaken]
      rfl

end Reader

namespace Session

structure Keeps (s : Scanner) (passages : List Passage) (top : Reader) (t : Scanner)
    (left : Reader) : Prop where
  top : top = .scanner t left
  grain : t.ahead.grain = s.ahead.grain
  progress : t.progress = s.progress.along passages

theorem askKeeps {s : Scanner} {below : Reader} (fit : (Reader.scanner s below).Fit)
    (query : Query) : ∃ t left, Keeps s
      (passages (.scanner s below) (.ask query) (perform (.scanner s below) (.ask query)).response)
      (perform (.scanner s below) (.ask query)).top t left := by
  have mounted : (Mounted.mk s below).Fit := ⟨fit.1, fit.2⟩
  have yields := Mounted.serveYields mounted query
  have consumes := Mounted.serveItems mounted query
  refine ⟨_, _, rfl, (congrArg Prospect.grain yields.left).trans consumes.grain, ?_⟩
  refine (congrArg Prospect.progress yields.left).trans (consumes.progress.trans ?_)
  exact (Progress.alongItems s.progress _).symm

theorem chainKeeps {s : Scanner} {below last : Reader} {events : List Event} {bytes : Bytes}
    (chain : Chain Reader.Step (.scanner s below) events last) (told : handed events 0 = bytes) :
    ∃ t left, Keeps s [.raw bytes] last t left := by
  obtain ⟨t, left, top, grain, progress⟩ := Reader.chainProgress chain rfl
  rw [told] at progress
  exact ⟨t, left, top, grain, progress⟩

theorem requestKeeps {s : Scanner} {below : Reader} (fit : (Reader.scanner s below).Fit)
    {request : Request} (own : Own request) : ∃ t left, Keeps s
      (passages (.scanner s below) request (perform (.scanner s below) request).response)
      (perform (.scanner s below) request).top t left := by
  cases request with
  | ask query => exact askKeeps fit query
  | read n => exact chainKeeps (Reader.pullChain _ n) (congrFun (readHand _ n) 0)
  | exactly n => exact chainKeeps (Reader.exactlyChain _ _ _ _) (congrFun (exactlyHand _ n) 0)
  | drain n => exact chainKeeps (Reader.drainChain _ _ _) (congrFun (drainHand _ n) 0)
  | inner => exact ⟨s, below, rfl, rfl, rfl⟩
  | split => exact ⟨s, below, rfl, rfl, rfl⟩
  | wrap grain settings => exact own.elim
  | retire => exact own.elim

theorem historyKeeps {s : Scanner} {below : Reader} (fit : (Reader.scanner s below).Fit)
    {requests : List Request} (own : ∀ request ∈ requests, Own request) :
    ∃ t left, Keeps s (history (.scanner s below) requests) (last (.scanner s below) requests)
      t left := by
  induction requests generalizing s below with
  | nil => exact ⟨s, below, rfl, rfl, rfl⟩
  | cons request rest ih =>
    have further := performFit fit request
    obtain ⟨t, left, top, grain, progress⟩ := requestKeeps fit (own request List.mem_cons_self)
    rw [top] at further
    obtain ⟨u, final, later⟩ :=
      ih further fun other member => own other (List.mem_cons_of_mem _ member)
    refine ⟨u, final, ?_, later.grain.trans grain, ?_⟩
    · rw [last, top]
      exact later.top
    · rw [history, top, Progress.alongAppend, ← progress]
      exact later.progress

theorem passagesTaken (top : Reader) (request : Request) (response : Response) :
    (passages top request response).flatMap Passage.bytes = takes top request response := by
  unfold passages
  split
  · rw [List.flatMap_map]
    exact Mounted.consumedSpelled _ _ _
  · exact List.append_nil _

theorem historyTaken (top : Reader) (requests : List Request) :
    (history top requests).flatMap Passage.bytes = taken top requests := by
  induction requests generalizing top with
  | nil => rfl
  | cons request rest ih =>
    rw [history, List.flatMap_append, passagesTaken, ih]
    rfl

theorem passagesGrained {s : Scanner} {below : Reader} (fit : (Reader.scanner s below).Fit)
    {request : Request} {item : Item} (member : item ∈ items (passages (.scanner s below) request
      (perform (.scanner s below) request).response)) :
    item.grain = s.ahead.grain ∨ ∃ bytes, request = .ask (.acceptBytes bytes) ∧
      Utf8.text? bytes = none ∧ ∃ b ∈ bytes, item = .byte b := by
  cases request with
  | ask query =>
    have mounted : (Mounted.mk s below).Fit := ⟨fit.1, fit.2⟩
    have inside : item ∈ items (((Mounted.mk s below).consumed query
        ((Mounted.mk s below).serve query).result).map .item) := member
    rw [itemsAll] at inside
    obtain same | ⟨bytes, rfl, odd⟩ := Mounted.consumedGrained mounted inside
    · exact .inl same
    · exact .inr ⟨bytes, rfl, odd⟩
  | _ => contradiction

theorem historyGrained {s : Scanner} {below : Reader} (fit : (Reader.scanner s below).Fit)
    {requests : List Request} (own : ∀ request ∈ requests, Own request) {item : Item}
    (member : item ∈ items (history (.scanner s below) requests)) :
    item.grain = s.ahead.grain ∨ ∃ bytes, .ask (.acceptBytes bytes) ∈ requests ∧
      Utf8.text? bytes = none ∧ ∃ b ∈ bytes, item = .byte b := by
  induction requests generalizing s below with
  | nil => contradiction
  | cons request rest ih =>
    have further := performFit fit request
    obtain ⟨t, left, top, grain, -⟩ := requestKeeps fit (own request List.mem_cons_self)
    rw [history, itemsAppend] at member
    rw [top] at member further
    cases List.mem_append.mp member with
    | inl now =>
      obtain same | ⟨bytes, rfl, odd⟩ := passagesGrained fit now
      · exact .inl same
      · exact .inr ⟨bytes, List.mem_cons_self, odd⟩
    | inr later =>
      obtain same | ⟨bytes, asked, odd⟩ :=
        ih further (fun other member => own other (List.mem_cons_of_mem _ member)) later
      · exact .inl (same.trans grain)
      · exact .inr ⟨bytes, List.mem_cons_of_mem _ asked, odd⟩

/- The bytes that went by are those that the stack beneath handed up, in their order, so the line is
told by the input itself. -/
theorem historyTold {below : Reader} (reachable : Reachable below) (grain : Grain)
    (settings : Settings) {requests : List Request} (own : ∀ request ∈ requests, Own request) :
    let top := start grain settings below
    let passed := history top requests
    below.buffered ++ served (run top requests) =
        passed.flatMap Passage.bytes ++ (last top requests).buffered ∧
      (∀ item ∈ items passed, item.grain = grain ∨
        ∃ bytes, .ask (.acceptBytes bytes) ∈ requests ∧ Utf8.text? bytes = none ∧
          ∃ b ∈ bytes, item = .byte b) ∧
      ∃ s left, last top requests = .scanner s left ∧ s.progress.Tells passed ∧
        ∀ text, sinceBreak (items passed) = text.map .scalar →
          (perform (last top requests) (.ask .lineText)).response = .found (.text text) := by
  intro top passed
  have fit : top.Fit := reachableFit (reachableStart reachable grain settings)
  have whole := lastBuffered fit requests
  obtain ⟨s, left, keeps⟩ := historyKeeps fit own
  have tells : s.progress.Tells passed := by
    rw [keeps.progress]
    exact Progress.alongTells passed
  have grained : (Ahead.fresh grain).grain = grain := by cases grain <;> rfl
  refine ⟨?_, fun item member => ?_, s, left, keeps.top, tells, fun text since => ?_⟩
  · rw [startBuffered] at whole
    rw [historyTaken]
    exact whole
  · have told := historyGrained fit own member
    rwa [show (Scanner.fresh grain settings.granted).ahead.grain = grain from grained] at told
  · have line : s.line = Utf8.encode text := by
      rw [Scanner.line, tells.bytes, since, List.flatMap_map]
      rfl
    rw [show last top requests = .scanner s left from keeps.top]
    change Response.found (.text (Utf8.lossy s.line)) = _
    rw [line, Utf8.lossyEncode]

def broken : Reader := .script ⟨[.data [0x61, 0x0A, 0xFF, 0xC3, 0xA9]], some 2, none⟩

def visits : List Request := [.ask (.accept ['a', '\n']), .read 1, .ask .peek, .ask .next]

theorem historyToldBroken :
    let top := start .scalars ⟨4⟩ broken
    let passed := history top visits
    Reachable broken ∧ (∀ request ∈ visits, Own request) ∧
      broken.buffered ++ served (run top visits) =
        passed.flatMap Passage.bytes ++ (last top visits).buffered ∧
      (∀ item ∈ items passed, item.grain = .scalars ∨
        ∃ bytes, .ask (.acceptBytes bytes) ∈ visits ∧ Utf8.text? bytes = none ∧
          ∃ b ∈ bytes, item = .byte b) ∧
      ∃ s left, last top visits = .scanner s left ∧ s.progress.Tells passed ∧
        ∀ text, sinceBreak (items passed) = text.map .scalar →
          (perform (last top visits) (.ask .lineText)).response = .found (.text text) := by
  have own : ∀ request ∈ visits, Own request := by simp [visits, Own]
  have reachable : Reachable broken := .stream _
  exact ⟨reachable, own, historyTold reachable .scalars ⟨4⟩ own⟩

end Session
end Readahead
