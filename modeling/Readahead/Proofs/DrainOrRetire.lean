import Readahead.Proofs.RawReads

/-! Two ways to the rest of the data: raw reads of the scanner, and reads of what it hands on when
it is retired. Both give what can be obtained, in order and whatever the sizes, and then the end;
the scanner is at its end for good. What was handed on gives its own bytes first, and the reader
beneath is not touched before they are all given. -/
namespace Readahead

def Answer.Carries : Answer → Prop
  | .served bytes => bytes ≠ []
  | .failed f => f.Passing

def Finish.Heard : Finish → Answer → Prop
  | .ended, answer => answer = .served []
  | .failed kind, answer => ∃ f, answer = .failed f ∧ f.kind = kind

theorem heardBytes {finish : Finish} {answer : Answer} (heard : finish.Heard answer) :
    answer.bytes = [] := by
  cases finish with
  | ended =>
    cases heard
    rfl
  | failed kind =>
    obtain ⟨f, rfl, -⟩ := heard
    rfl

theorem heardSettles {finish : Finish} {answer : Answer} (ends : finish ≠ .failed .interrupted)
    (heard : finish.Heard answer) : answer.phase ≠ .flowing ∧ finish.Heard answer.phase.bare := by
  cases finish with
  | ended =>
    cases heard
    exact ⟨Phase.noConfusion, rfl⟩
  | failed kind =>
    obtain ⟨f, rfl, same⟩ := heard
    have lasting : ¬f.Passing := by
      intro passing
      exact ends (congrArg Finish.failed (same.symm.trans passing))
    rw [Answer.phase, if_neg lasting]
    exact ⟨Phase.noConfusion, .ofKind f.kind, rfl, same⟩

/-- Answers to reads in a row, up to the first that tells of an end and from that one on: before it
comes what is in front, all of it if the end is told. -/
structure Front.Pours (front : Front) (before after : List Answer) : Prop where
  carries : ∀ answer ∈ before, answer.Carries
  order : before.flatMap Answer.bytes <+: front.bytes
  whole : after ≠ [] → before.flatMap Answer.bytes = front.bytes
  heard : ∀ answer ∈ after.head?, front.finish.Heard answer

namespace Reader

variable {r : Reader} {sizes : List Nat}

def answers (r : Reader) : List Nat → List Answer
  | [] => []
  | n :: sizes => (r.read n).answer :: (r.read n).reader.answers sizes

def after (r : Reader) : List Nat → Reader
  | [] => r
  | n :: sizes => (r.read n).reader.after sizes

def given (r : Reader) (sizes : List Nat) : Bytes := (r.answers sizes).flatMap Answer.bytes

theorem givenCons (r : Reader) (n : Nat) (sizes : List Nat) :
    r.given (n :: sizes) = (r.read n).answer.bytes ++ (r.read n).reader.given sizes := rfl

theorem answersAppend (r : Reader) (early late : List Nat) :
    r.answers (early ++ late) = r.answers early ++ (r.after early).answers late := by
  induction early generalizing r with
  | nil => rfl
  | cons n early ih => exact congrArg ((r.read n).answer :: ·) (ih _)

theorem answersSome (some : sizes ≠ []) : r.answers sizes ≠ [] := by
  cases sizes with
  | nil => exact absurd rfl some
  | cons n sizes => exact List.cons_ne_nil _ _

theorem afterFit (fit : r.Fit) (sizes : List Nat) : (r.after sizes).Fit := by
  induction sizes generalizing r with
  | nil => exact fit
  | cons n sizes ih => exact ih (readFit fit n)

structure Splits (r : Reader) (early late : List Nat) : Prop where
  carries : ∀ answer ∈ r.answers early, answer.Carries
  front : r.front = (r.after early).front.behind (r.given early)
  bare : late ≠ [] → (r.after early).front.bytes = []
  heard : ∀ n ∈ late.head?, r.front.finish.Heard ((r.after early).read n).answer
  enough : r.front.bytes.length + r.interruptions < (early ++ late).length → late ≠ []

theorem splitsEnd {n : Nat} (bare : r.front.bytes = [])
    (heard : r.front.finish.Heard (r.read n).answer) : r.Splits [] (n :: sizes) := by
  refine ⟨fun answer none => by contradiction, rfl, fun _ => bare, fun size first => ?_,
    fun _ => List.cons_ne_nil n sizes⟩
  cases Option.some.inj first
  exact heard

theorem splitsNext {early late : List Nat} {n : Nat} (carries : (r.read n).answer.Carries)
    (front : r.front = (r.read n).reader.front.behind (r.read n).answer.bytes)
    (fewer : (r.read n).reader.front.bytes.length + (r.read n).reader.interruptions <
      r.front.bytes.length + r.interruptions)
    (later : (r.read n).reader.Splits early late) : r.Splits (n :: early) late := by
  refine ⟨List.forall_mem_cons.mpr ⟨carries, later.carries⟩, ?_, later.bare, ?_, fun many => ?_⟩
  · rw [front, later.front, behindTwice]
    rfl
  · rw [front]
    exact later.heard
  · refine later.enough ?_
    rw [List.cons_append, List.length_cons] at many
    omega

theorem readsSplit (fit : r.Fit) (ends : r.front.finish ≠ .failed .interrupted)
    (rooms : ∀ n ∈ sizes, 0 < n) : ∃ early late, sizes = early ++ late ∧ r.Splits early late := by
  induction sizes generalizing r with
  | nil =>
    refine ⟨[], [], rfl, fun answer none => by contradiction, rfl, fun some => absurd rfl some,
      fun n none => by contradiction, fun many => ?_⟩
    exact absurd many (Nat.not_lt_zero _)
  | cons n sizes ih =>
    obtain ⟨room, others⟩ := List.forall_mem_cons.mp rooms
    have further := readFit fit n
    have out := readTurnsOut fit ends room
    generalize told : (r.read n).answer = answer at out
    cases out with
    | ended bare =>
      refine ⟨[], n :: sizes, rfl, splitsEnd (congrArg Front.bytes bare) ?_⟩
      rw [bare]
      exact told
    | failed bare lasting =>
      refine ⟨[], n :: sizes, rfl, splitsEnd (congrArg Front.bytes bare) ?_⟩
      rw [bare]
      exact ⟨_, told, rfl⟩
    | again passing same fewer =>
      obtain ⟨early, late, parts, later⟩ := ih further (by rw [same]; exact ends) others
      refine ⟨n :: early, late, congrArg (n :: ·) parts, splitsNext ?_ ?_ ?_ later⟩
      · rw [told]
        exact passing
      · rw [told]
        exact same.symm
      · rw [same]
        omega
    | served front few fewer =>
      obtain ⟨early, late, parts, later⟩ := ih further (by rw [front] at ends; exact ends) others
      refine ⟨n :: early, late, congrArg (n :: ·) parts, splitsNext ?_ ?_ ?_ later⟩
      · rw [told]
        exact List.cons_ne_nil _ _
      · rw [told]
        exact front
      · rw [front, Front.behind, List.length_append, List.length_cons]
        omega

theorem splitsPour {early late : List Nat} (splits : r.Splits early late) :
    r.front.Pours (r.answers early) ((r.after early).answers late) := by
  refine ⟨splits.carries, ?_, fun some => ?_, fun answer first => ?_⟩
  · rw [splits.front]
    exact List.prefix_append _ _
  · have bare : (r.after early).front.bytes = [] :=
      splits.bare fun none => some (congrArg (r.after early).answers none)
    rw [splits.front, Front.behind, bare, List.append_nil]
    rfl
  · cases late with
    | nil => contradiction
    | cons n late =>
      cases Option.some.inj first
      exact splits.heard n rfl

end Reader

namespace Mounted

variable {m k : Mounted} {front : Front} {sizes : List Nat}

theorem readsPass {r : Reader} (sizes : List Nat) (top : r = m.reader) : ∃ k : Mounted,
    r.after sizes = k.reader ∧
      k.scanner.progress = m.scanner.progress.pass (r.given sizes).length := by
  induction sizes generalizing m r with
  | nil => exact ⟨m, top, rfl⟩
  | cons n sizes ih =>
    subst top
    obtain ⟨t, left, next, -, progress⟩ := Reader.readProgress m.scanner m.below n
    obtain ⟨k, final, later⟩ := ih (m := ⟨t, left⟩) next
    change t.progress = m.scanner.progress.pass (m.reader.read n).answer.bytes.length at progress
    refine ⟨k, final, ?_⟩
    rw [Reader.givenCons, List.length_append, ← Progress.passTwice, ← progress]
    exact later

theorem closedAnswers {r : Reader} (closed : m.Closed) (rooms : ∀ n ∈ sizes, 0 < n)
    (top : r = m.reader) : ∀ answer ∈ r.answers sizes, answer = m.scanner.buffer.phase.bare := by
  induction sizes generalizing m r with
  | nil => exact fun answer none => by contradiction
  | cons n sizes ih =>
    subst top
    obtain ⟨room, others⟩ := List.forall_mem_cons.mp rooms
    obtain ⟨answer, k, next, rests⟩ := closedRead closed n
    rw [if_neg (Nat.ne_of_gt room)] at answer
    exact List.forall_mem_cons.mpr ⟨answer, fun later member =>
      (ih rests.closed others next later member).trans rests.bare⟩

theorem endCloses {finish : Finish} {n : Nat} (fit : m.Fit) (bare : m.front.bytes = [])
    (room : 0 < n) (ends : finish ≠ .failed .interrupted)
    (heard : finish.Heard (m.reader.read n).answer) :
    ∃ k : Mounted, (m.reader.read n).reader = k.reader ∧ k.Closed ∧
      finish.Heard k.scanner.buffer.phase.bare := by
  have within : m.scanner.window <+: m.front.bytes := Buffer.frontWindow _ _
  rw [bare] at within
  have empty := List.prefix_nil.mp within
  have few : m.scanner.window.length < n := by
    rw [empty]
    exact room
  obtain ⟨k, -, copies⟩ := readCopies fit n
  have window : k.scanner.window = [] := by rw [copies.window, empty, List.drop_nil]
  have further := copiesFit fit copies
  refine ⟨k, copies.top, ?_⟩
  by_cases flowing : m.scanner.buffer.phase = .flowing
  · obtain ⟨answer, -, -, phase⟩ := copies.asked few flowing
    rw [empty] at answer phase
    rw [answer, Answer.behindNothing] at heard
    obtain ⟨settled, still⟩ := heardSettles ends heard
    rw [← phase] at settled still
    exact ⟨⟨further, settled, window⟩, still⟩
  · obtain ⟨answer, -, -, phase⟩ := copies.settled few flowing
    rw [answer, empty, Answer.behindNothing] at heard
    rw [← phase] at flowing heard
    exact ⟨⟨further, flowing, window⟩, heard⟩

structure Drains (m : Mounted) (front : Front) (sizes : List Nat) (before after : List Answer)
    (k : Mounted) : Prop where
  answers : m.reader.answers sizes = before ++ after
  top : m.reader.after sizes = k.reader
  pours : front.Pours before after
  forever : ∀ answer ∈ after, front.finish.Heard answer
  progress : k.scanner.progress = m.scanner.progress.pass (before.flatMap Answer.bytes).length

theorem endForever {r : Reader} {late : List Nat} {finish : Finish} (fit : m.Fit)
    (ends : finish ≠ .failed .interrupted) (rooms : ∀ n ∈ late, 0 < n) (top : r = m.reader)
    (bare : late ≠ [] → r.front.bytes = [])
    (heard : ∀ n ∈ late.head?, finish.Heard (r.read n).answer) :
    ∀ answer ∈ r.answers late, finish.Heard answer := by
  subst top
  cases late with
  | nil => exact fun answer none => by contradiction
  | cons n late =>
    obtain ⟨room, others⟩ := List.forall_mem_cons.mp rooms
    have first := heard n rfl
    obtain ⟨k, next, closed, still⟩ :=
      endCloses fit (bare (List.cons_ne_nil n late)) room ends first
    refine List.forall_mem_cons.mpr ⟨first, fun answer member => ?_⟩
    rw [closedAnswers closed others next answer member]
    exact still

theorem scannerDrains (fit : m.reader.Fit) (ends : m.front.finish ≠ .failed .interrupted)
    (rooms : ∀ n ∈ sizes, 0 < n) : ∃ before after k, m.Drains m.front sizes before after k ∧
      (m.front.bytes.length + m.reader.interruptions < sizes.length → after ≠ []) := by
  obtain ⟨early, late, parts, splits⟩ := Reader.readsSplit fit ends rooms
  obtain ⟨l, halfway, -⟩ := readsPass early (rfl : m.reader = m.reader)
  obtain ⟨k, final, progress⟩ := readsPass sizes (rfl : m.reader = m.reader)
  have answers := Reader.answersAppend m.reader early late
  rw [← parts] at answers
  have further := Reader.afterFit fit early
  rw [halfway] at further
  have forever := endForever (readerFit further) ends
    (fun n member => rooms n (by rw [parts]; exact List.mem_append_right _ member)) halfway
    splits.bare splits.heard
  have nothing : ((m.reader.after early).answers late).flatMap Answer.bytes = [] :=
    List.flatMap_eq_nil_iff.mpr fun answer member => heardBytes (forever answer member)
  rw [Reader.given, answers, List.flatMap_append, nothing, List.append_nil] at progress
  refine ⟨_, _, k, ⟨answers, final, Reader.splitsPour splits, forever, progress⟩, fun many => ?_⟩
  rw [parts] at many
  exact Reader.answersSome (splits.enough many)

theorem retireFront (fit : m.Fit) (obtains : m.Obtains front)
    (persists : m.scanner.buffer.phase ≠ .flowing → m.below.Delivers ⟨[], front.finish⟩) :
    m.retire.front = front := by
  rw [obtainsFront fit obtains] at persists ⊢
  change m.below.front.behind m.scanner.buffer.window = m.front
  by_cases flowing : m.scanner.buffer.phase = .flowing
  · rw [Mounted.front, Buffer.front, flowing]
  · have beneath := deliversFront fit.below (persists flowing)
    rw [beneath, Front.behind, List.append_nil]
    rw [Mounted.front, Buffer.front]
    cases phase : m.scanner.buffer.phase with
    | flowing => exact absurd phase flowing
    | ended | broken kind | spent => rfl

theorem retirePours (fit : m.Fit) (obtains : m.Obtains front)
    (persists : m.scanner.buffer.phase ≠ .flowing → m.below.Delivers ⟨[], front.finish⟩)
    (rooms : ∀ n ∈ sizes, 0 < n) : ∃ before after,
      m.retire.answers sizes = before ++ after ∧ front.Pours before after ∧
        (front.bytes.length + m.retire.interruptions < sizes.length → after ≠ []) := by
  have same := retireFront fit obtains persists
  have ends := obtainsPatient fit obtains
  rw [← same] at ends ⊢
  have handed : m.retire.Fit := fit.below
  obtain ⟨early, late, rfl, splits⟩ := Reader.readsSplit handed ends rooms
  exact ⟨_, _, Reader.answersAppend _ early late, Reader.splitsPour splits,
    fun many => Reader.answersSome (splits.enough many)⟩

structure HandsOn (m : Mounted) (sizes : List Nat) (pending : Bytes) (below : Reader) : Prop where
  left : m.retire.after sizes = .remainder pending below
  split : Session.perform (m.retire.after sizes) .split = Session.plain (.pending pending) below
  untouched : pending ≠ [] → m.scanner.window = m.retire.given sizes ++ pending ∧
    below = m.below ∧ ∀ n, ((m.retire.after sizes).read n).beneath = []
  whole : pending = [] → m.scanner.window <+: m.retire.given sizes

end Mounted

theorem remainderGives (pending : Bytes) (below : Reader) (sizes : List Nat) :
    ∃ rest left, (Reader.remainder pending below).after sizes = .remainder rest left ∧
      (rest ≠ [] → pending = (Reader.remainder pending below).given sizes ++ rest ∧ left = below) ∧
      (rest = [] → pending <+: (Reader.remainder pending below).given sizes) := by
  induction sizes generalizing pending below with
  | nil =>
    refine ⟨pending, below, rfl, fun _ => ⟨rfl, rfl⟩, fun none => ?_⟩
    rw [none]
    exact List.nil_prefix
  | cons n sizes ih =>
    cases pending with
    | nil =>
      obtain ⟨rest, left, final, some, _⟩ := ih [] (below.read n).reader
      refine ⟨rest, left, final, fun held => ?_, fun _ => List.nil_prefix⟩
      exact absurd (List.append_eq_nil_iff.mp (some held).1.symm).2 held
    | cons b pending =>
      obtain ⟨rest, left, final, some, none⟩ := ih ((b :: pending).drop n) below
      have parts := List.take_append_drop n (b :: pending)
      have given : (Reader.remainder (b :: pending) below).given (n :: sizes) =
          (b :: pending).take n ++
            (Reader.remainder ((b :: pending).drop n) below).given sizes := rfl
      rw [given]
      refine ⟨rest, left, final, fun held => ⟨?_, (some held).2⟩, fun empty => ?_⟩
      · rw [List.append_assoc, ← (some held).1, parts]
      · conv => lhs; rw [← parts]
        exact (List.prefix_append_right_inj _).mpr (none empty)

namespace Mounted

variable {m k : Mounted} {front : Front} {sizes : List Nat}

theorem retireHandsOn (m : Mounted) (sizes : List Nat) :
    ∃ pending below, m.HandsOn sizes pending below := by
  obtain ⟨pending, below, left, some, none⟩ := remainderGives m.scanner.window m.below sizes
  have left : m.retire.after sizes = .remainder pending below := left
  refine ⟨pending, below, left, ?_, fun held => ⟨(some held).1, (some held).2, fun n => ?_⟩, none⟩
  · rw [left]
    rfl
  · rw [left]
    cases pending with
    | nil => exact absurd rfl held
    | cons b pending => rfl

/- The scanner knows of the end it heard; beneath it has to come again to be heard again. -/
theorem handoverTold (reachable : Session.Reachable m.reader) (obtains : m.Obtains front) :
    (∃ enough, ∀ sizes, (∀ n ∈ sizes, 0 < n) → ∃ before after k,
      m.Drains front sizes before after k ∧ (enough < sizes.length → after ≠ [])) ∧
    ((m.scanner.buffer.phase ≠ .flowing → m.below.Delivers ⟨[], front.finish⟩) →
      ∃ enough, ∀ sizes, (∀ n ∈ sizes, 0 < n) → ∃ before after,
        m.retire.answers sizes = before ++ after ∧ front.Pours before after ∧
          (enough < sizes.length → after ≠ [])) ∧
    ∀ sizes, ∃ pending below, m.HandsOn sizes pending below := by
  have top := Session.reachableFit reachable
  have fit := readerFit top
  refine ⟨⟨front.bytes.length + m.reader.interruptions, fun sizes rooms => ?_⟩,
    fun persists => ⟨front.bytes.length + m.retire.interruptions, fun sizes rooms =>
      retirePours fit obtains persists rooms⟩, m.retireHandsOn⟩
  have ends := obtainsPatient fit obtains
  rw [obtainsFront fit obtains] at ends ⊢
  exact scannerDrains top ends rooms

theorem handoverToldDivided :
    let m : Mounted := (Mounted.look 1 ⟨.fresh .scalars 4, .script .divided⟩).state
    let front : Front := ⟨[0xC3, 0xA9, 0xE2], .failed .brokenPipe⟩
    Session.Reachable m.reader ∧ m.Obtains front ∧
      (m.scanner.buffer.phase ≠ .flowing → m.below.Delivers ⟨[], front.finish⟩) ∧
      (∀ n ∈ [1, 3, 2, 4], 0 < n) ∧
      (∃ before after k, m.Drains front [1, 3, 2, 4] before after k) ∧
      (∃ before after, m.retire.answers [1, 3, 2, 4] = before ++ after ∧
        front.Pours before after) ∧
      ∃ pending below, m.HandsOn [1] pending below := by
  intro m front
  obtain ⟨reachable, obtains⟩ := dividedLooked .scalars 1
  have flowing : m.scanner.buffer.phase = .flowing := by decide +kernel
  have persists : m.scanner.buffer.phase ≠ .flowing → m.below.Delivers ⟨[], front.finish⟩ :=
    fun settled => absurd flowing settled
  have rooms : ∀ n ∈ [1, 3, 2, 4], 0 < n := by decide
  obtain ⟨⟨_, drains⟩, hands, parts⟩ := handoverTold reachable obtains
  obtain ⟨_, pours⟩ := hands persists
  obtain ⟨before, after, k, drained, -⟩ := drains _ rooms
  obtain ⟨early, late, answers, poured, -⟩ := pours _ rooms
  exact ⟨reachable, obtains, persists, rooms, ⟨before, after, k, drained⟩,
    ⟨early, late, answers, poured⟩, parts [1]⟩

-- The scanner joins the window and the stream in one answer, what it hands on does not.
example :
    let m : Mounted := (Mounted.look 1 ⟨.fresh .scalars 4, .script .divided⟩).state
    m.reader.answers [1, 3, 2] =
        [.served [0xC3], .served [0xA9, 0xE2], .failed (.ofKind .brokenPipe)] ∧
      m.retire.answers [1, 3, 2] = [.served [0xC3], .served [0xA9], .served [0xE2]] := by
  decide +kernel

end Mounted
end Readahead
