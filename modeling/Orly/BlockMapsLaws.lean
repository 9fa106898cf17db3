import Orly.BlockMaps

namespace Orly

/-!
# Laws of the block and discard maps

Every operation writes runs of bits and keeps both counters at the populations of their
maps.  A scan takes one run of free blocks, and takes nothing only when nothing is free.
-/

open List BlockMaps BitRanges

namespace BlockMaps

variable {layout : VolumeLayout} {maps : BlockMaps}

/-- The maps with a run of the discard map written. -/
def writeDiscards (on : Bool) (maps : BlockMaps) (start count : Nat) : BlockMaps :=
  { maps with
    discardMap := setRange maps.discardMap start count on
    discardBlockWaiting :=
      if on then maps.discardBlockWaiting + count else maps.discardBlockWaiting - count }

/-- The maps with a run of the block map cleared. -/
def clearBlocks (maps : BlockMaps) (start count : Nat) : BlockMaps :=
  { maps with
    blockMap := setRange maps.blockMap start count false
    blocksUsed := maps.blocksUsed - count }

theorem writesRuns_writeDiscards (on : Bool) : WritesRuns (writeDiscards on) where
  zero := by
    intro state start
    cases on <;> simp [writeDiscards]
  join := by
    intro state start first second
    cases on with
    | true => simp [writeDiscards, setRange_append, Nat.add_assoc]
    | false => simp [writeDiscards, setRange_append, Nat.sub_sub]

theorem writesRuns_clearBlocks : WritesRuns clearBlocks where
  zero := by
    intro state start
    simp [clearBlocks]
  join := by
    intro state start first second
    simp [clearBlocks, setRange_append, Nat.sub_sub]

theorem setDiscardBuf_eq (on : Bool) (maps : BlockMaps) (blockId : Nat) :
    maps.setDiscardBuf on blockId = maps.writeDiscards on blockId 1 := by
  simp [setDiscardBuf, writeDiscards, setRange_one]

theorem setBlockBuf_false_eq (maps : BlockMaps) (blockId : Nat) :
    maps.setBlockBuf layout false blockId = maps.clearBlocks blockId 1 := by
  simp [setBlockBuf, clearBlocks, setRange_one]

theorem setDiscardRange_eq (on : Bool) (maps : BlockMaps) (start count : Nat) :
    maps.setDiscardRange on start count = maps.writeDiscards on start count :=
  (writesRuns_writeDiscards on).overRange_eq (setDiscardBuf_eq on) (fun _ _ => rfl) maps start count

theorem clearBlockBufRange_eq {start count : Nat} (inside : start + count ≤ layout.numBlocks) :
    maps.clearBlockBufRange layout start count = some (maps.clearBlocks start count) := by
  rw [clearBlockBufRange, if_neg (by omega)]
  exact congrArg some
    (writesRuns_clearBlocks.overRange_eq setBlockBuf_false_eq (fun _ _ => rfl) maps start count)

end BlockMaps

/-- What holds of the maps of a volume at all times. -/
structure MapsSound (layout : VolumeLayout) (maps : BlockMaps) : Prop where
  blocksUsed : maps.blocksUsed = population maps.blockMap layout.numBlocks
  discardBlockWaiting : maps.discardBlockWaiting = population maps.discardMap layout.numBlocks
  discardSubset : ∀ block, maps.discardMap block = true → maps.blockMap block = true
  inside : ∀ block, maps.blockMap block = true → block < layout.numBlocks
  cachedStart : maps.cachedStart ≤ layout.mapWords

namespace MapsSound

variable {layout : VolumeLayout} {maps : BlockMaps}

theorem new (layout : VolumeLayout) : MapsSound layout .new where
  blocksUsed := (population_eq_zero_iff.mpr fun _ _ => rfl).symm
  discardBlockWaiting := (population_eq_zero_iff.mpr fun _ _ => rfl).symm
  discardSubset := by simp [BlockMaps.new]
  inside := by simp [BlockMaps.new]
  cachedStart := by simp [BlockMaps.new]

/-- Blocks that are held may start to wait for a discard. -/
theorem writeDiscards_on (sound : MapsSound layout maps) {start count : Nat}
    (held : ∀ block, start ≤ block → block < start + count →
      maps.blockMap block = true ∧ maps.discardMap block = false)
    (inside : start + count ≤ layout.numBlocks) :
    MapsSound layout (maps.writeDiscards true start count) :=
  { sound with
    discardBlockWaiting := by
      simp only [writeDiscards, ↓reduceIte]
      rw [population_setRange_on (fun block above below =>
        (held block above below).2) inside, sound.discardBlockWaiting]
    discardSubset := by
      intro block waiting
      by_cases written : start ≤ block ∧ block < start + count
      · exact (held block written.1 written.2).1
      · refine sound.discardSubset block ?_
        simpa only [writeDiscards, setRange_of_not_mem written]
          using waiting }

/-- Blocks that wait for a discard may be given back. -/
theorem release (sound : MapsSound layout maps) {start count : Nat}
    (waiting : ∀ block, start ≤ block → block < start + count → maps.discardMap block = true)
    (inside : start + count ≤ layout.numBlocks) :
    MapsSound layout ((maps.writeDiscards false start count).clearBlocks start count) where
  blocksUsed := by
    have used := population_setRange_off
      (fun block above below => sound.discardSubset block (waiting block above below)) inside
    simp only [clearBlocks, writeDiscards]
    rw [sound.blocksUsed]
    omega
  discardBlockWaiting := by
    have fewer := population_setRange_off waiting inside
    simp only [clearBlocks, writeDiscards, Bool.false_eq_true, ↓reduceIte]
    rw [sound.discardBlockWaiting]
    omega
  discardSubset := by
    intro block stillWaiting
    simp only [clearBlocks, writeDiscards] at stillWaiting ⊢
    by_cases written : start ≤ block ∧ block < start + count
    · rw [setRange_of_mem written] at stillWaiting
      simp at stillWaiting
    · rw [setRange_of_not_mem written] at stillWaiting ⊢
      exact sound.discardSubset block stillWaiting
  inside := by
    intro block used
    simp only [clearBlocks, writeDiscards] at used
    by_cases written : start ≤ block ∧ block < start + count
    · omega
    · rw [setRange_of_not_mem written] at used
      exact sound.inside block used
  cachedStart := sound.cachedStart

end MapsSound

/-- What a scan for blocks has done to the maps it started from: it has set one run of
free blocks, no more than wanted. -/
structure Took (layout : VolumeLayout) (before : BlockMaps) (wanted : Nat)
    (scan : SeqScan) : Prop where
  blockMap : scan.maps.blockMap = setRange before.blockMap scan.startOut scan.curAlloced true
  discardMap : scan.maps.discardMap = before.discardMap
  discardBlockWaiting : scan.maps.discardBlockWaiting = before.discardBlockWaiting
  blocksUsed : scan.maps.blocksUsed = before.blocksUsed + scan.curAlloced
  enough : scan.curAlloced ≤ wanted
  free : ∀ block, scan.startOut ≤ block → block < scan.startOut + scan.curAlloced →
    before.blockMap block = false
  inside : scan.curAlloced ≠ 0 → scan.startOut + scan.curAlloced ≤ layout.numBlocks
  cachedStart : scan.maps.cachedStart ≤ layout.mapWords

namespace Took

variable {layout : VolumeLayout} {before : BlockMaps} {wanted : Nat} {scan : SeqScan}

theorem start (cachedStart : before.cachedStart ≤ layout.mapWords) :
    Took layout before wanted ⟨before, 0, 0⟩ where
  blockMap := (setRange_zero _ _ _).symm
  discardMap := rfl
  discardBlockWaiting := rfl
  blocksUsed := rfl
  enough := Nat.zero_le _
  free := by
    intro block above below
    simp at below
  inside := by simp
  cachedStart := cachedStart

section

variable (took : Took layout before wanted scan)

include took

/-- The run of a scan grows by a run of blocks next to it that were free all along. -/
theorem grow {blockId count cachedStart : Nat} {startOut : Nat}
    (next : startOut + scan.curAlloced = blockId)
    (sameStart : scan.curAlloced ≠ 0 → startOut = scan.startOut)
    (stillFree : ∀ block, blockId ≤ block → block < blockId + count →
      scan.maps.blockMap block = false) (enough : scan.curAlloced + count ≤ wanted)
    (inside : blockId + count ≤ layout.numBlocks) (cached : cachedStart ≤ layout.mapWords) :
    Took layout before wanted
      ⟨{ scan.maps with
          blockMap := setRange scan.maps.blockMap blockId count true
          cachedStart := cachedStart
          blocksUsed := scan.maps.blocksUsed + count },
        scan.curAlloced + count, startOut⟩ where
  blockMap := by
    have same : setRange before.blockMap scan.startOut scan.curAlloced true =
        setRange before.blockMap startOut scan.curAlloced true := by
      by_cases nothing : scan.curAlloced = 0
      · rw [nothing, setRange_zero, setRange_zero]
      · rw [sameStart nothing]
    simp only
    rw [took.blockMap, same, ← next, setRange_append]
  discardMap := took.discardMap
  discardBlockWaiting := took.discardBlockWaiting
  blocksUsed := by
    simp only
    rw [took.blocksUsed, Nat.add_assoc]
  enough := enough
  free := by
    intro block above below
    dsimp only at above below
    by_cases old : block < startOut + scan.curAlloced
    · have startEq := sameStart (by omega)
      exact took.free block (by omega) (by omega)
    · have wasFree := stillFree block (by omega) (by omega)
      rw [took.blockMap] at wasFree
      by_cases inRun : scan.startOut ≤ block ∧ block < scan.startOut + scan.curAlloced
      · rw [setRange_of_mem inRun] at wasFree
        simp at wasFree
      · rwa [setRange_of_not_mem inRun] at wasFree
  inside := by
    intro _
    simp only
    omega
  cachedStart := cached

/-- Taking a free block goes on with the range. -/
theorem takeBlock {blockId : Nat} {taken : SeqScan}
    (stillFree : scan.maps.blockMap blockId = false) (inside : blockId < layout.numBlocks)
    (enough : scan.curAlloced < wanted) (takes : scan.takeBlock layout blockId = some taken) :
    Took layout before wanted taken := by
  have cached : (if blockId < layout.numBlocks - 1 then blockId / 64 else 0) ≤ layout.mapWords := by
    rw [VolumeLayout.mapWords]
    split <;> omega
  have oneFree : ∀ block, blockId ≤ block → block < blockId + 1 →
      scan.maps.blockMap block = false := by
    intro block above below
    have same : block = blockId := by omega
    rw [same, stillFree]
  have written : scan.maps.setBlockBuf layout true blockId =
      { scan.maps with
        blockMap := setRange scan.maps.blockMap blockId 1 true
        cachedStart := if blockId < layout.numBlocks - 1 then blockId / 64 else 0
        blocksUsed := scan.maps.blocksUsed + 1 } := by
    rw [setRange_one]
    rfl
  rw [SeqScan.takeBlock, written] at takes
  split at takes
  case isTrue nothing =>
    cases takes
    exact took.grow (by omega) (fun some => absurd nothing some) oneFree (by omega)
      (by omega) cached
  case isFalse something =>
    split at takes
    case isTrue next =>
      cases takes
      exact took.grow next (fun _ => rfl) oneFree (by omega) (by omega) cached
    case isFalse => simp at takes

/-- Taking an empty word goes on with the range. -/
theorem takeWord {word : Nat} {taken : SeqScan} (empty : wordEmpty scan.maps.blockMap word = true)
    (inside : (word + 1) * 64 ≤ layout.numBlocks) (enough : 64 ≤ wanted - scan.curAlloced)
    (takes : scan.takeWord layout (64 * word) = some taken) :
    Took layout before wanted taken := by
  have cached : (if 64 * word + 64 < layout.numBlocks then 64 * word / 64 + 1 else 0) ≤
        layout.mapWords := by
    rw [VolumeLayout.mapWords]
    split <;> omega
  have wordFree : ∀ block, 64 * word ≤ block → block < 64 * word + 64 →
      scan.maps.blockMap block = false := by
    intro block above below
    have bitFree := all_eq_true.mp empty (block - 64 * word) (mem_range.mpr (by omega))
    have same : 64 * word + (block - 64 * word) = block := by omega
    simpa [same] using bitFree
  rw [SeqScan.takeWord] at takes
  split at takes
  case isTrue nothing =>
    cases takes
    exact took.grow (by omega) (fun some => absurd nothing some) wordFree (by omega)
      (by omega) cached
  case isFalse something =>
    split at takes
    case isTrue next =>
      cases takes
      exact took.grow next (fun _ => rfl) wordFree (by omega) (by omega) cached
    case isFalse => simp at takes

omit took in
theorem takeBlock_other
    {blockId other : Nat} {taken : SeqScan} (takes : scan.takeBlock layout blockId = some taken)
    (differs : other ≠ blockId) :
    taken.maps.blockMap other = scan.maps.blockMap other := by
  rw [SeqScan.takeBlock] at takes
  split at takes
  case isTrue =>
    cases takes
    exact Function.update_of_ne differs _ _
  case isFalse =>
    split at takes
    case isTrue =>
      cases takes
      exact Function.update_of_ne differs _ _
    case isFalse => simp at takes

/-- The bits still to be looked at are as they stood when the word was read. -/
theorem scanBits {bits : Nat → Bool} {word : Nat} {rest : List Nat} (distinct : rest.Nodup)
    (unchanged : ∀ bit ∈ rest, scan.maps.blockMap (64 * word + bit) = bits (64 * word + bit)) :
    Took layout before wanted (SeqScan.scanBits layout wanted bits word rest scan).1 := by
  induction rest generalizing scan with
  | nil => exact took
  | cons bit rest ih =>
    obtain ⟨notLater, restDistinct⟩ := nodup_cons.mp distinct
    rw [SeqScan.scanBits]
    split
    case isFalse => exact took
    case isTrue enough =>
      split
      case isFalse =>
        exact ih took restDistinct fun other mem => unchanged other (mem_cons_of_mem _ mem)
      case isTrue freeBit =>
        split
        case h_2 => exact took
        case h_1 taken takes =>
          have stillFree := (unchanged bit mem_cons_self).trans freeBit.1
          refine ih (took.takeBlock stillFree freeBit.2 enough takes) restDistinct ?_
          intro other mem
          have differs : 64 * word + other ≠ 64 * word + bit := by
            intro same
            have sameBit : other = bit := by omega
            exact notLater (sameBit ▸ mem)
          rw [takeBlock_other takes differs]
          exact unchanged other (mem_cons_of_mem _ mem)

/-- A word is scanned bit by bit or taken whole. -/
theorem scanWord (word : Nat) : Took layout before wanted (scan.scanWord layout wanted word).1 := by
  rw [SeqScan.scanWord]
  split
  case isTrue wholeWord =>
    split
    case h_1 taken takes =>
      exact took.takeWord wholeWord.1 wholeWord.2.2 wholeWord.2.1 takes
    case h_2 => exact took
  case isFalse =>
    split
    case isTrue => exact took.scanBits nodup_range fun _ _ => rfl
    case isFalse => exact took

/-- The scan keeps to free blocks, word after word. -/
theorem scanWords (goesOn : SeqScan → Nat → Bool) (words : List Nat) :
    Took layout before wanted (SeqScan.scanWords layout wanted goesOn words scan).1 := by
  induction words generalizing scan with
  | nil => exact took
  | cons word words ih =>
    have here := took.scanWord word
    rw [SeqScan.scanWords]
    split
    case isFalse => exact took
    case isTrue =>
      split
      case h_1 next scanned =>
        rw [scanned] at here
        exact ih here
      case h_2 next scanned =>
        rw [scanned] at here
        exact here

end

/-- A search for blocks takes one run of free blocks. -/
theorem tryGetSeqBlocks (cachedStart : before.cachedStart ≤ layout.mapWords) (wanted : Nat) :
    Took layout before wanted (before.tryGetSeqBlocks layout wanted) := by
  have begun : Took layout before wanted ⟨before, 0, 0⟩ := start cachedStart
  have forward := begun.scanWords (fun scan _ => decide (scan.curAlloced < wanted))
    (List.range' before.cachedStart (layout.mapWords - before.cachedStart))
  simp only [BlockMaps.tryGetSeqBlocks]
  split
  · exact forward
  · exact forward.scanWords _ _

end Took

namespace SeqScan

variable {layout : VolumeLayout} {wanted : Nat} {scan : SeqScan}

/-- No block of a word is free. -/
def NoneFree (layout : VolumeLayout) (bits : Nat → Bool) (word : Nat) : Prop :=
  ∀ bit, bit < 64 → 64 * word + bit < layout.numBlocks → bits (64 * word + bit) = true

theorem curAlloced_takeBlock {blockId : Nat} {taken : SeqScan}
    (takes : scan.takeBlock layout blockId = some taken) :
    taken.curAlloced = scan.curAlloced + 1 := by
  rw [takeBlock] at takes
  split at takes
  · cases takes
    rfl
  · split at takes
    · cases takes
      rfl
    · simp at takes

theorem curAlloced_le_scanBits
    (layout : VolumeLayout) (wanted : Nat) (bits : Nat → Bool) (word : Nat) (rest : List Nat)
    (scan : SeqScan) :
    scan.curAlloced ≤ (scanBits layout wanted bits word rest scan).1.curAlloced := by
  induction rest generalizing scan with
  | nil => exact Nat.le_refl _
  | cons bit rest ih =>
    rw [scanBits]
    split
    case isFalse => exact Nat.le_refl _
    case isTrue =>
      split
      case isFalse => exact ih scan
      case isTrue =>
        split
        case h_2 => exact Nat.le_refl _
        case h_1 taken takes =>
          have more := curAlloced_takeBlock takes
          have later := ih taken
          omega

/-- A loop over bits that takes nothing has met no free block and goes on. -/
theorem scanBits_takes_nothing
    (wants : 0 < wanted) {bits : Nat → Bool} {word : Nat} {rest : List Nat}
    (nothing : (scanBits layout wanted bits word rest scan).1.curAlloced = 0) :
    scanBits layout wanted bits word rest scan = (scan, true) ∧
      ∀ bit ∈ rest, 64 * word + bit < layout.numBlocks → bits (64 * word + bit) = true := by
  induction rest generalizing scan with
  | nil => simp [scanBits]
  | cons bit rest ih =>
    have begun : scan.curAlloced = 0 := by
      have less := curAlloced_le_scanBits layout wanted bits word (bit :: rest) scan
      omega
    rw [scanBits, if_pos (by omega)] at nothing ⊢
    split at nothing
    case isTrue freeBit =>
      have taken : scan.takeBlock layout (64 * word + bit) =
          some ⟨scan.maps.setBlockBuf layout true (64 * word + bit),
            scan.curAlloced + 1, 64 * word + bit⟩ := by
        rw [takeBlock, if_pos begun]
      rw [taken] at nothing
      have more := curAlloced_le_scanBits layout wanted bits word rest
        ⟨scan.maps.setBlockBuf layout true (64 * word + bit), scan.curAlloced + 1, 64 * word + bit⟩
      dsimp only at more nothing
      omega
    case isFalse notFree =>
      rw [if_neg notFree]
      obtain ⟨same, restUsed⟩ := ih nothing
      refine ⟨same, ?_⟩
      intro other mem
      rcases mem_cons.mp mem with here | later
      · intro inside
        rw [here] at inside ⊢
        by_contra clear
        exact notFree ⟨Bool.eq_false_iff.mpr clear, inside⟩
      · exact restUsed other later

theorem curAlloced_le_scanWord (layout : VolumeLayout) (wanted : Nat) (scan : SeqScan)
    (word : Nat) :
    scan.curAlloced ≤ (scan.scanWord layout wanted word).1.curAlloced := by
  rw [scanWord]
  split
  case isTrue =>
    rw [takeWord]
    split
    case h_1 taken takes =>
      split at takes
      · cases takes
        simp
      · split at takes
        · cases takes
          simp
        · simp at takes
    case h_2 => exact Nat.le_refl _
  case isFalse =>
    split
    case isTrue => exact curAlloced_le_scanBits layout wanted _ _ _ _
    case isFalse => exact Nat.le_refl _

/-- A scan that takes nothing has seen no free block. -/
theorem scanWord_takes_nothing (wants : 0 < wanted) {word : Nat}
    (nothing : (scan.scanWord layout wanted word).1.curAlloced = 0) :
    scan.scanWord layout wanted word = (scan, true) ∧ NoneFree layout scan.maps.blockMap word := by
  have begun : scan.curAlloced = 0 := by
    have less := curAlloced_le_scanWord layout wanted scan word
    omega
  rw [scanWord] at nothing ⊢
  split at nothing
  case isTrue =>
    rw [takeWord, if_pos begun] at nothing
    simp at nothing
  case isFalse notWhole =>
    rw [if_neg notWhole]
    split at nothing
    case isTrue notFull =>
      rw [if_pos notFull]
      obtain ⟨same, used⟩ := scanBits_takes_nothing wants nothing
      exact ⟨same, fun bit below => used bit (mem_range.mpr below)⟩
    case isFalse full =>
      rw [if_neg full]
      refine ⟨rfl, ?_⟩
      intro bit below _
      have allSet : wordFull scan.maps.blockMap word = true := by simpa using full
      exact all_eq_true.mp allSet bit (mem_range.mpr below)

theorem curAlloced_le_scanWords
    (layout : VolumeLayout) (wanted : Nat) (goesOn : SeqScan → Nat → Bool) (words : List Nat)
    (scan : SeqScan) :
    scan.curAlloced ≤ (scanWords layout wanted goesOn words scan).1.curAlloced := by
  induction words generalizing scan with
  | nil => exact Nat.le_refl _
  | cons word words ih =>
    have here := curAlloced_le_scanWord layout wanted scan word
    rw [scanWords]
    split
    case isFalse => exact Nat.le_refl _
    case isTrue =>
      split
      case h_1 next scanned =>
        rw [scanned] at here
        exact Nat.le_trans here (ih next)
      case h_2 next scanned =>
        rw [scanned] at here
        exact here

/-- A loop over words that takes nothing leaves the maps alone and finds no free block in
any word up to the one at which its condition fails. -/
theorem scanWords_takes_nothing
    (wants : 0 < wanted) {goesOn : SeqScan → Nat → Bool} {words : List Nat}
    (nothing : (scanWords layout wanted goesOn words scan).1.curAlloced = 0) :
    scanWords layout wanted goesOn words scan = (scan, true) ∧ ∃ looked left,
        words = looked ++ left ∧ (∀ word ∈ looked, NoneFree layout scan.maps.blockMap word) ∧
          ∀ word ∈ left.head?, goesOn scan word = false := by
  induction words with
  | nil => exact ⟨rfl, [], [], rfl, by simp, by simp⟩
  | cons word words ih =>
    by_cases goes : goesOn scan word = true
    · have wordNothing : (scan.scanWord layout wanted word).1.curAlloced = 0 := by
        rw [scanWords, if_pos goes] at nothing
        split at nothing
        case h_1 next scanned =>
          have less := curAlloced_le_scanWords layout wanted goesOn words next
          rw [scanned]
          dsimp only
          omega
        case h_2 next scanned =>
          rw [scanned]
          exact nothing
      obtain ⟨same, noneHere⟩ := scanWord_takes_nothing wants wordNothing
      rw [scanWords, if_pos goes, same] at nothing ⊢
      obtain ⟨restSame, looked, left, split, noneLater, stopped⟩ := ih nothing
      refine ⟨restSame, word :: looked, left, by rw [split, cons_append], ?_, stopped⟩
      intro other mem
      rcases mem_cons.mp mem with here | later
      · rw [here]
        exact noneHere
      · exact noneLater other later
    · refine ⟨by rw [scanWords, if_neg goes], [], word :: words, rfl, by simp, ?_⟩
      intro other atHead
      rw [← Option.some.inj atHead]
      exact Bool.eq_false_iff.mpr goes

end SeqScan

/-- A search that takes nothing has found every block in use. -/
theorem BlockMaps.tryGetSeqBlocks_takes_nothing
    {layout : VolumeLayout} {maps : BlockMaps} {wanted : Nat} (wants : 0 < wanted)
    (nothing : (maps.tryGetSeqBlocks layout wanted).curAlloced = 0) :
    ∀ block, block < layout.numBlocks → maps.blockMap block = true := by
  simp only [BlockMaps.tryGetSeqBlocks] at nothing
  have forwardNothing :
      (SeqScan.scanForward layout wanted
        (List.range' maps.cachedStart (layout.mapWords - maps.cachedStart))
        ⟨maps, 0, 0⟩).1.curAlloced = 0 := by
    split at nothing
    case isTrue => exact nothing
    case isFalse stopped => omega
  obtain ⟨forwardSame, looked, left, split, noneForward, forwardStopped⟩ :=
    SeqScan.scanWords_takes_nothing wants forwardNothing
  have allLooked : left = [] := by
    cases left with
    | nil => rfl
    | cons word left =>
      have stopped := forwardStopped word rfl
      simp at stopped
      omega
  rw [allLooked, append_nil] at split
  have forwardEq : SeqScan.scanForward layout wanted
          (List.range' maps.cachedStart (layout.mapWords - maps.cachedStart))
          ⟨maps, 0, 0⟩ =
        (⟨maps, 0, 0⟩, true) := forwardSame
  rw [forwardEq, if_neg (by simp)] at nothing
  obtain ⟨_, lookedFirst, leftLast, splitAll, noneFirst, firstStopped⟩ :=
    SeqScan.scanWords_takes_nothing wants nothing
  intro block inside
  have parts : 64 * (block / 64) + block % 64 = block := by omega
  have isWord : block / 64 < layout.mapWords := by
    rw [VolumeLayout.mapWords]
    omega
  have noneFree : SeqScan.NoneFree layout maps.blockMap (block / 64) := by
    by_cases fromCached : maps.cachedStart ≤ block / 64
    · refine noneForward (block / 64) ?_
      rw [← split, mem_range'_1]
      omega
    · have inAll : block / 64 ∈ lookedFirst ++ leftLast := by
        rw [← splitAll]
        exact mem_range.mpr isWord
      rcases mem_append.mp inAll with seen | unseen
      · exact noneFirst _ seen
      · exfalso
        cases leftLast with
        | nil => simp at unseen
        | cons word leftLast =>
          have stopped := firstStopped word rfl
          have ascending : (lookedFirst ++ word :: leftLast).Pairwise (· < ·) := by
            rw [← splitAll]
            exact pairwise_lt_range
          have fromWord := (pairwise_cons.mp (pairwise_append.mp ascending).2.1).1
          have notBefore : maps.cachedStart ≤ word := by simpa using stopped
          rcases mem_cons.mp unseen with here | later
          · omega
          · have after := fromWord (block / 64) later
            omega
  have used := noneFree (block % 64) (by omega) (by omega)
  rwa [parts] at used

end Orly
