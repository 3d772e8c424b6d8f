import Readahead.Buffer

/-! What each operation does to the window of a sound buffer: moving it to the front keeps it,
appending extends it, dropping shortens it from the front, and all of them keep the buffer sound. -/
namespace Readahead.Buffer

theorem freshSound {capacity : Nat} (positive : 0 < capacity) : (fresh capacity).Sound :=
  ⟨Nat.le_refl 0, Nat.zero_le _, positive, fun _ => by simp [fresh],
    fun h => by simp [fresh] at h, by simp [fresh]⟩

theorem freshWindow (capacity : Nat) : (fresh capacity).window = [] := by simp [fresh, window]

theorem stopInside {b : Buffer} (sound : b.Sound) : b.stop ≤ b.storage.length := by
  by_cases spent : b.phase = .spent
  · rw [(sound.emptied spent).2.2]; exact Nat.zero_le _
  · rw [sound.stored spent]; exact sound.bounded

theorem windowLength {b : Buffer} (sound : b.Sound) : b.window.length = b.filled := by
  have inside := stopInside sound
  simp only [window, filled, List.length_drop, List.length_take]
  omega

theorem windowBounded {b : Buffer} (sound : b.Sound) : b.window.length ≤ b.capacity := by
  rw [windowLength sound]
  have := sound.bounded
  simp only [filled]
  omega

theorem spentWindow {b : Buffer} (sound : b.Sound) (spent : b.phase = .spent) :
    b.window = [] := by
  simp [window, (sound.emptied spent).1]

theorem toFrontWindow {b : Buffer} (sound : b.Sound) : b.toFront.window = b.window := by
  have size := windowLength sound
  simp only [toFront, window, List.drop_zero] at size ⊢
  rw [← size, List.take_left]

theorem toFrontSound {b : Buffer} (sound : b.Sound) : b.toFront.Sound := by
  have inside := stopInside sound
  have size := windowLength sound
  have bounded := sound.bounded
  refine ⟨Nat.zero_le _, ?_, sound.positive, ?_, ?_, sound.lasting⟩
  · simp only [toFront, filled]; omega
  · intro live
    simp only [toFront, List.length_append, List.length_drop, size]
    have := sound.stored live
    simp only [filled]
    omega
  · intro spent
    obtain ⟨storage, start, stop⟩ := sound.emptied spent
    simp [toFront, window, filled, storage, start, stop]

theorem appendSound {b : Buffer} {bytes : Bytes} (sound : b.Sound) (live : b.phase ≠ .spent)
    (fits : bytes.length ≤ b.room) : (b.append bytes).Sound := by
  have stored := sound.stored live
  have bounded := sound.bounded
  have ordered := sound.ordered
  simp only [room] at fits
  refine ⟨?_, ?_, sound.positive, ?_, fun spent => absurd spent live, sound.lasting⟩
  · simp only [append]; omega
  · simp only [append]; omega
  · intro _
    simp only [append, List.length_append, List.length_take, List.length_drop]
    omega

theorem appendBehind {b : Buffer} {bytes : Bytes} (ordered : b.start ≤ b.stop)
    (inside : b.stop ≤ b.storage.length) : (b.append bytes).window = b.window ++ bytes := by
  have front : (b.storage.take b.stop ++ bytes).length = b.stop + bytes.length := by
    simp only [List.length_append, List.length_take]
    omega
  simp only [append, window]
  rw [← front, List.take_left, List.drop_append_of_le_length]
  simp only [List.length_take]
  omega

theorem appendWindow {b : Buffer} {bytes : Bytes} (sound : b.Sound) :
    (b.append bytes).window = b.window ++ bytes := appendBehind sound.ordered (stopInside sound)

theorem dropWindow (b : Buffer) (n : Nat) : (b.drop n).window = b.window.drop n := by
  simp [drop, window, List.drop_drop]

theorem dropSound {b : Buffer} {n : Nat} (sound : b.Sound) (within : n ≤ b.window.length) :
    (b.drop n).Sound := by
  rw [windowLength sound] at within
  simp only [filled] at within
  have ordered := sound.ordered
  refine ⟨?_, sound.bounded, sound.positive, sound.stored, ?_, sound.lasting⟩
  · simp only [drop]; omega
  · intro spent
    obtain ⟨storage, start, stop⟩ := sound.emptied spent
    refine ⟨storage, ?_, stop⟩
    simp only [drop]; omega

@[simp] theorem turnWindow (b : Buffer) (phase : Phase) : (b.turn phase).window = b.window := rfl

@[simp] theorem turnPhase (b : Buffer) (phase : Phase) : (b.turn phase).phase = phase := rfl

@[simp] theorem dropPhase (b : Buffer) (n : Nat) : (b.drop n).phase = b.phase := rfl

theorem giveUpSound {b : Buffer} (positive : 0 < b.capacity) : b.giveUp.Sound :=
  ⟨Nat.le_refl 0, Nat.zero_le _, positive, fun live => absurd rfl live, fun _ => ⟨rfl, rfl, rfl⟩,
    by simp [giveUp]⟩

end Readahead.Buffer
