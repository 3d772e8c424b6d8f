import Mathlib.Data.List.Forall2
import Readahead.Proofs.StreamUnseen
import Readahead.Proofs.LineTracking

/-! A scanner over bytes and one over scalars test and accept alike. Each text and each run of bytes
is found by both or by neither, and they stand at the same place of the same line after it. Only
what they call a column differs, and not before the scanner over scalars took a text that is not
ASCII. What they show of single items is another matter. -/
namespace Readahead

def Ascii (text : Utf8.Text) : Prop := ∀ c ∈ text, c.toNat < 0x80

def Query.Tests : Query → Prop
  | .meets _ | .meetsBytes _ | .accept _ | .acceptBytes _ => True
  | _ => False

def Query.Plain : Query → Prop
  | .accept text => Ascii text
  | .acceptBytes bytes => ∀ text, Utf8.text? bytes = some text → Ascii text
  | _ => True

theorem Utf8.textAhead (text : Text) (bytes : Bytes) :
    text <+: Utf8.text (decode bytes).scalars ↔ encode text <+: bytes := by
  constructor
  · rintro ⟨rest, more⟩
    have parts := decodeParts bytes
    rw [← more, encodeAppend, List.append_assoc] at parts
    exact ⟨_, parts.symm⟩
  · rintro ⟨rest, more⟩
    rw [← more, scalarsAhead]
    exact List.prefix_append _ _

theorem asciiUnits {text : Utf8.Text} (ascii : Ascii text) :
    (Utf8.encode text).map (fun b => [b]) = text.map Utf8.spell := by
  induction text with
  | nil => rfl
  | cons c text ih =>
    rw [Utf8.encodeCons, List.map_append, List.map_cons,
      ih fun d member => ascii d (List.mem_cons_of_mem _ member),
      Utf8.spellOne (ascii c List.mem_cons_self)]
    rfl

namespace Prospect

structure Beside (fine coarse : Prospect) : Prop where
  bytes : fine.grain = .bytes
  scalars : coarse.grain = .scalars
  capacity : fine.capacity = coarse.capacity
  front : fine.front = coarse.front
  progress : fine.progress.Beside coarse.progress

/-- The same answer of both, which leaves them beside each other, and their columns level if they
were and nothing but plain text was taken. -/
structure Agree (fine coarse : Prospect) (plain : Prop) (t u : Turn Bool) : Prop where
  result : t.result = u.result
  left : t.left.Beside u.left
  level : fine.progress = coarse.progress → (t.result = true → plain) →
    t.left.progress = u.left.progress

variable {fine coarse : Prospect}

theorem besideSight (beside : fine.Beside coarse) : fine.sight = coarse.sight := by
  rw [sight, sight, beside.front, beside.capacity]

theorem besideTried (beside : fine.Beside coarse) (n : Nat) :
    (fine.tried n).Beside coarse :=
  ⟨beside.bytes, beside.scalars, beside.capacity, beside.front, beside.progress⟩

theorem meetsBytesAgree (beside : fine.Beside coarse) (bytes : Bytes) :
    Agree fine coarse True (fine.meetsBytes bytes) (coarse.meetsBytes bytes) := by
  unfold meetsBytes
  split
  · exact ⟨rfl, beside, fun level _ => level⟩
  · rw [triedScalars beside.scalars, besideSight beside]
    exact ⟨rfl, besideTried beside _, fun level _ => level⟩

theorem meetsEncoded (p : Prospect) (text : Utf8.Text) :
    p.meets text = p.meetsBytes (Utf8.encode text) := by
  unfold meets
  cases grained : p.grain with
  | bytes => rfl
  | scalars =>
    have seen : (text.map Item.scalar).isPrefixOf p.items =
        (Utf8.encode text).isPrefixOf p.sight := by
      rw [Bool.eq_iff_iff, List.isPrefixOf_iff_prefix, List.isPrefixOf_iff_prefix, items,
        grained, Grain.items, ← Utf8.textAhead]
      exact List.prefix_map_iff_of_injective fun c d same => Item.scalar.inj same
    simp only
    rw [seen, meetsBytes, triedScalars grained]
    split
    · rename_i empty
      rw [List.isEmpty_iff.mp empty]
      rfl
    · rfl

theorem meetsAgree (beside : fine.Beside coarse) (text : Utf8.Text) :
    Agree fine coarse True (fine.meets text) (coarse.meets text) := by
  rw [meetsEncoded, meetsEncoded]
  exact meetsBytesAgree beside (Utf8.encode text)

theorem spendIfAgree {plain : Prop} {units units' : List Bytes} {t u : Turn Bool}
    (tested : Agree fine coarse True t u) (same : units.flatten = units'.flatten)
    (moves : ∀ {b c : Progress}, b.Beside c → (b.moveAll units).Beside (c.moveAll units'))
    (alike : plain → units = units') :
    Agree fine coarse plain (spendIf units t) (spendIf units' u) := by
  obtain ⟨result, left, level⟩ := tested
  simp only [spendIf, Turn.andThen, ← result]
  cases passed : t.result with
  | false =>
    exact ⟨rfl, left, fun even _ => level even fun _ => trivial⟩
  | true =>
    refine ⟨rfl, ?_, fun even only => ?_⟩
    · refine ⟨left.bytes, left.scalars, left.capacity, ?_, moves left.progress⟩
      simp only [if_true, Turn.map, spend]
      rw [left.front, same]
    · have first := level even fun _ => trivial
      have units := alike (only rfl)
      simp only [if_true, Turn.map, spend]
      rw [first, units]

theorem acceptAgree (beside : fine.Beside coarse) (text : Utf8.Text) :
    Agree fine coarse (Ascii text) (fine.accept text) (coarse.accept text) := by
  rw [accept, accept, beside.bytes, beside.scalars]
  have same : ((Utf8.encode text).map fun b => [b]).flatten = (text.map Utf8.spell).flatten := by
    rw [unitsFlat, Utf8.encode, List.flatMap]
  have moves {fine coarse : Progress} (beside : fine.Beside coarse) :
      (fine.moveAll ((Utf8.encode text).map fun b => [b])).Beside
        (coarse.moveAll (text.map Utf8.spell)) := by
    rw [← Progress.recordUnits]
    exact Progress.besideText beside text
  exact spendIfAgree (meetsAgree beside text) same moves asciiUnits

theorem acceptEncoded (grained : fine.grain = .bytes) (text : Utf8.Text) :
    fine.accept text = fine.acceptBytes (Utf8.encode text) := by
  rw [accept, acceptBytes, grained, meetsEncoded]

theorem acceptBytesAgree (beside : fine.Beside coarse) (bytes : Bytes) :
    Agree fine coarse (∀ text, Utf8.text? bytes = some text → Ascii text)
      (fine.acceptBytes bytes) (coarse.acceptBytes bytes) := by
  cases told : Utf8.text? bytes with
  | some text =>
    have taken : coarse.acceptBytes bytes = coarse.accept text := by
      rw [acceptBytes, beside.scalars, told]
    have accepted := acceptAgree beside text
    rw [acceptEncoded beside.bytes, Utf8.textEncodes told, ← taken] at accepted
    exact ⟨accepted.result, accepted.left,
      fun even only => accepted.level even fun passed => only passed text rfl⟩
  | none =>
    have tested := meetsBytesAgree beside bytes
    rw [acceptBytes, acceptBytes, beside.bytes, beside.scalars, told]
    exact spendIfAgree tested rfl (fun beside => Progress.besideMoveAll beside _) fun _ => rfl

theorem truthAgree {t u : Turn Bool} {plain : Prop} (agree : Agree fine coarse plain t u) :
    ∃ value, (t.map Finding.truth).result = .truth value ∧
      (u.map Finding.truth).result = .truth value ∧
      (t.map Finding.truth).left.Beside (u.map Finding.truth).left ∧
      (fine.progress = coarse.progress → (value = true → plain) →
        (t.map Finding.truth).left.progress = (u.map Finding.truth).left.progress) :=
  ⟨t.result, rfl, congrArg Finding.truth agree.result.symm, agree.left, agree.level⟩

theorem serveAgree (beside : fine.Beside coarse) {query : Query} (tests : query.Tests) :
    ∃ value, (fine.serve query).result = .truth value ∧
      (coarse.serve query).result = .truth value ∧
      (fine.serve query).left.Beside (coarse.serve query).left ∧
      (fine.progress = coarse.progress → (value = true → query.Plain) →
        (fine.serve query).left.progress = (coarse.serve query).left.progress) := by
  cases query with
  | meets text => exact truthAgree (meetsAgree beside text)
  | meetsBytes bytes => exact truthAgree (meetsBytesAgree beside bytes)
  | accept text => exact truthAgree (acceptAgree beside text)
  | acceptBytes bytes => exact truthAgree (acceptBytesAgree beside bytes)
  | _ => exact tests.elim

end Prospect

namespace Session

def Paired (agree : Progress → Progress → Prop) (fine coarse : Response × Face) : Prop :=
  ∃ value capacity b c, fine = (.found (.truth value), .scanner .bytes capacity b) ∧
    coarse = (.found (.truth value), .scanner .scalars capacity c) ∧ agree b c

variable {fine coarse : Prospect}

theorem servedPaired {agree : Progress → Progress → Prop} {value : Bool} {query : Query}
    (left : (fine.serve query).left.Beside (coarse.serve query).left)
    (first : (fine.serve query).result = .truth value)
    (second : (coarse.serve query).result = .truth value)
    (agrees : agree (fine.serve query).left.progress (coarse.serve query).left.progress) :
    Paired agree (.found (fine.serve query).result, .scanner (fine.serve query).left.grain
        (fine.serve query).left.capacity (fine.serve query).left.progress)
      (.found (coarse.serve query).result, .scanner (coarse.serve query).left.grain
        (coarse.serve query).left.capacity (coarse.serve query).left.progress) := by
  refine ⟨value, (fine.serve query).left.capacity, _, _, ?_, ?_, agrees⟩
  · rw [first, left.bytes]
  · rw [second, left.scalars, left.capacity]

theorem testsPaired (beside : fine.Beside coarse) {queries : List Query}
    (tests : ∀ query ∈ queries, query.Tests) :
    List.Forall₂ (Paired Progress.Beside) ((Standing.scanner fine).run (queries.map .ask))
      ((Standing.scanner coarse).run (queries.map .ask)) := by
  induction queries generalizing fine coarse with
  | nil => exact .nil
  | cons query rest ih =>
    obtain ⟨value, first, second, left, -⟩ :=
      Prospect.serveAgree beside (tests query List.mem_cons_self)
    exact .cons (servedPaired left first second left.progress)
      (ih left fun other member => tests other (List.mem_cons_of_mem _ member))

theorem plainPaired (beside : fine.Beside coarse) (level : fine.progress = coarse.progress)
    {queries : List Query} (tests : ∀ query ∈ queries, query.Tests) (n : Nat)
    (plain : ∀ step ∈ (queries.zip ((Standing.scanner coarse).run (queries.map .ask))).take n,
      step.2.1 = .found (.truth true) → step.1.Plain) :
    List.Forall₂ (Paired Eq) (((Standing.scanner fine).run (queries.map .ask)).take n)
      (((Standing.scanner coarse).run (queries.map .ask)).take n) := by
  induction queries generalizing fine coarse n with
  | nil => simp [Standing.run]
  | cons query rest ih =>
    cases n with
    | zero => exact .nil
    | succ n =>
      obtain ⟨value, first, second, left, even⟩ :=
        Prospect.serveAgree beside (tests query List.mem_cons_self)
      have now := even level fun passed =>
        plain (query, _, _) List.mem_cons_self (by rw [second, passed])
      refine .cons (servedPaired left first second now) (ih left now ?_ n ?_)
      · exact fun other member => tests other (List.mem_cons_of_mem _ member)
      · exact fun step member => plain step (List.mem_cons_of_mem _ member)

/- Both stand on a stack of the same state, which may be any. -/
theorem grainsAgree {below : Reader} (reachable : Reachable below) (settings : Settings)
    {queries : List Query} (tests : ∀ query ∈ queries, query.Tests) :
    let fine := (run (start .bytes settings below) (queries.map .ask)).map seen
    let coarse := (run (start .scalars settings below) (queries.map .ask)).map seen
    List.Forall₂ (Paired Progress.Beside) fine coarse ∧
      ∀ n, (∀ step ∈ (queries.zip coarse).take n,
          step.2.1 = .found (.truth true) → step.1.Plain) →
        List.Forall₂ (Paired Eq) (fine.take n) (coarse.take n) := by
  intro fine coarse
  have beside : Prospect.Beside ⟨.bytes, settings.granted, below.front, .start, false⟩
      ⟨.scalars, settings.granted, below.front, .start, false⟩ :=
    ⟨rfl, rfl, rfl, rfl, Progress.besideSame _⟩
  have told : ∀ grain, (run (start grain settings below) (queries.map .ask)).map seen =
      (Standing.scanner ⟨grain, settings.granted, below.front, .start, false⟩).run
        (queries.map .ask) := by
    intro grain
    rw [queriesTell (reachableFit (reachableStart reachable grain settings)), startStanding]
  simp only [fine, coarse, told]
  exact ⟨testsPaired beside tests, plainPaired beside rfl tests⟩

def mixed : Reader := .script ⟨[.data [0x61, 0xFF, 0xC3, 0xA9]], some 3, none⟩

def probes : List Query := [.accept ['a'], .acceptBytes [0xFF], .accept ['é']]

theorem grainsAgreeMixed :
    let fine := (run (start .bytes ⟨4⟩ mixed) (probes.map .ask)).map seen
    let coarse := (run (start .scalars ⟨4⟩ mixed) (probes.map .ask)).map seen
    Reachable mixed ∧ (∀ query ∈ probes, query.Tests) ∧
      List.Forall₂ (Paired Progress.Beside) fine coarse ∧
      (∀ step ∈ (probes.zip coarse).take 2,
        step.2.1 = .found (.truth true) → step.1.Plain) ∧
      List.Forall₂ (Paired Eq) (fine.take 2) (coarse.take 2) := by
  intro fine coarse
  have tests : ∀ query ∈ probes, query.Tests := by simp [probes, Query.Tests]
  have invalid : Utf8.text? [0xFF] = none := by decide
  have plain : ∀ query ∈ probes.take 2, query.Plain := by
    simp [probes, Query.Plain, Ascii, invalid]
  have both := grainsAgree (.stream _ : Reachable mixed) ⟨4⟩ tests
  have only : ∀ step ∈ (probes.zip coarse).take 2,
      step.2.1 = .found (.truth true) → step.1.Plain := by
    intro step member _
    rw [List.zip, List.take_zipWith] at member
    exact plain step.1 (List.of_mem_zip member).1
  exact ⟨.stream _, tests, both.1, only, both.2 2 only⟩

end Session
end Readahead
