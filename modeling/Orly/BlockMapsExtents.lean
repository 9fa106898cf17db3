import Orly.BlockMapsLaws

namespace Orly

/-!
# The extent table of a volume

On a volume whose extents are whole and apart, the blocks of the maps and the blocks of
the volume manager correspond one to one, and a run of the maps is handed out as ranges
that each lie in one extent.
-/

open List VolumeLayout

/-- The block map counts some blocks of every extent, and the extents are apart. -/
structure PlacedExtents (layout : VolumeLayout) : Prop where
  enough : layout.numBlocksPerExtent ≤ layout.spanBlocks
  blocks : layout.numBlocks = layout.extentStarts.length * layout.numBlocksPerExtent
  apart : layout.extentStarts.Pairwise fun first second =>
    first + layout.spanBlocks ≤ second ∨ second + layout.spanBlocks ≤ first

namespace PlacedExtents

variable {layout : VolumeLayout} (placed : PlacedExtents layout)

include placed

variable {blockId extentNum : Nat}

theorem blocksPerExtent_pos (inside : blockId < layout.numBlocks) :
    0 < layout.numBlocksPerExtent := by
  rw [placed.blocks] at inside
  exact Nat.pos_of_mul_pos_left (Nat.lt_of_le_of_lt (Nat.zero_le _) inside)

theorem extent_lt (inside : blockId < layout.numBlocks) :
    blockId / layout.numBlocksPerExtent < layout.extentStarts.length := by
  rw [Nat.div_lt_iff_lt_mul (placed.blocksPerExtent_pos inside), ← placed.blocks]
  exact inside

/-- Only one extent holds a block. -/
theorem extent_unique {first second firstStart secondStart block : Nat}
    (atFirst : layout.extentStarts[first]? = some firstStart)
    (atSecond : layout.extentStarts[second]? = some secondStart)
    (inFirst : firstStart ≤ block ∧ block < firstStart + layout.spanBlocks)
    (inSecond : secondStart ≤ block ∧ block < secondStart + layout.spanBlocks) :
    first = second := by
  obtain ⟨firstBound, firstEq⟩ := List.getElem?_eq_some_iff.mp atFirst
  obtain ⟨secondBound, secondEq⟩ := List.getElem?_eq_some_iff.mp atSecond
  rcases Nat.lt_trichotomy first second with below | same | above
  · have separate := pairwise_iff_getElem.mp placed.apart first second firstBound secondBound below
    rw [firstEq, secondEq] at separate
    omega
  · exact same
  · have separate := pairwise_iff_getElem.mp placed.apart second first secondBound firstBound above
    rw [firstEq, secondEq] at separate
    omega

omit placed in
theorem getD_of_getElem? {start : Nat} (atExtent : layout.extentStarts[extentNum]? = some start) :
    layout.extentStarts.getD extentNum 0 = start := by
  rw [getD_eq_getElem?_getD, atExtent]
  rfl

omit placed in
/-- An extent that is found holds the whole range. -/
theorem findExtent_some
    {start count : Nat} (found : layout.findExtent start count = some extentNum) :
    ∃ extentStart, layout.extentStarts[extentNum]? = some extentStart ∧
        extentStart ≤ start ∧ start + count ≤ extentStart + layout.spanBlocks := by
  obtain ⟨bound, holds, _⟩ := findIdx?_eq_some_iff_getElem.mp found
  have contained := of_decide_eq_true holds
  exact ⟨_, getElem?_eq_getElem bound, contained.1, contained.2⟩

/-- A block in an extent is found there. -/
theorem findExtent_block
    {block extentStart : Nat} (atExtent : layout.extentStarts[extentNum]? = some extentStart)
    (contained : extentStart ≤ block ∧ block < extentStart + layout.spanBlocks) :
    layout.findExtent block 1 = some extentNum := by
  cases found : layout.findExtent block 1 with
  | none =>
    have missed := findIdx?_eq_none_iff.mp found extentStart (mem_of_getElem? atExtent)
    simp only [decide_eq_false_iff_not] at missed
    omega
  | some other =>
    obtain ⟨otherStart, atOther, above, below⟩ := findExtent_some found
    have same := placed.extent_unique atOther atExtent ⟨above, by omega⟩ contained
    rw [same]

/-- The extent of a block of the maps, and its place in it. -/
theorem volumeBlock_eq (inside : blockId < layout.numBlocks) : ∃ start,
      layout.extentStarts[blockId / layout.numBlocksPerExtent]? = some start ∧
        layout.volumeBlock blockId = start + blockId % layout.numBlocksPerExtent ∧
        blockId % layout.numBlocksPerExtent < layout.spanBlocks := by
  have bound := placed.extent_lt inside
  have atExtent := getElem?_eq_getElem bound
  refine ⟨_, atExtent, ?_, ?_⟩
  · rw [volumeBlock, getD_of_getElem? atExtent]
  · exact Nat.lt_of_lt_of_le (Nat.mod_lt _ (placed.blocksPerExtent_pos inside)) placed.enough

/-- A block is found in its own extent. -/
theorem findExtent_volumeBlock (inside : blockId < layout.numBlocks) :
    layout.findExtent (layout.volumeBlock blockId) 1 =
      some (blockId / layout.numBlocksPerExtent) := by
  obtain ⟨start, atExtent, blockEq, below⟩ := placed.volumeBlock_eq inside
  exact placed.findExtent_block atExtent (by omega)

/-- From the volume's address back to the map's. -/
theorem mapBlock_volumeBlock (inside : blockId < layout.numBlocks) :
    layout.mapBlock (blockId / layout.numBlocksPerExtent) (layout.volumeBlock blockId) =
      blockId := by
  obtain ⟨start, atExtent, blockEq, _⟩ := placed.volumeBlock_eq inside
  rw [mapBlock, getD_of_getElem? atExtent, blockEq, Nat.add_sub_cancel_left,
    Nat.mul_comm, Nat.mod_add_div]

/-- Different blocks have different addresses. -/
theorem volumeBlock_injective {first second : Nat} (firstInside : first < layout.numBlocks)
    (secondInside : second < layout.numBlocks)
    (same : layout.volumeBlock first = layout.volumeBlock second) :
    first = second := by
  have firstExtent := placed.findExtent_volumeBlock firstInside
  have secondExtent := placed.findExtent_volumeBlock secondInside
  rw [same, secondExtent] at firstExtent
  have sameExtent := Option.some.inj firstExtent
  rw [← placed.mapBlock_volumeBlock firstInside, ← placed.mapBlock_volumeBlock secondInside,
    same, sameExtent]

end PlacedExtents

/-- The block map counts exactly the blocks of the extents. -/
structure WholeBlocks (layout : VolumeLayout) : Prop extends PlacedExtents layout where
  span : layout.spanBlocks = layout.numBlocksPerExtent

namespace WholeBlocks

open PlacedExtents

variable {layout : VolumeLayout} (whole : WholeBlocks layout)

include whole

/-- A block in an extent is the block of one block of the maps. -/
theorem mapBlock_inside {extentNum extentStart block : Nat}
    (atExtent : layout.extentStarts[extentNum]? = some extentStart)
    (contained : extentStart ≤ block ∧ block < extentStart + layout.spanBlocks) :
    layout.mapBlock extentNum block < layout.numBlocks ∧
      layout.volumeBlock (layout.mapBlock extentNum block) = block := by
  obtain ⟨bound, _⟩ := List.getElem?_eq_some_iff.mp atExtent
  rw [whole.span] at contained
  have place : block - extentStart < layout.numBlocksPerExtent := by omega
  have quotient : (block - extentStart + extentNum * layout.numBlocksPerExtent) /
      layout.numBlocksPerExtent = extentNum := by
    rw [Nat.add_mul_div_right _ _ (by omega), Nat.div_eq_of_lt place, Nat.zero_add]
  have remainder : (block - extentStart + extentNum * layout.numBlocksPerExtent) %
      layout.numBlocksPerExtent = block - extentStart := by
    rw [Nat.add_mul_mod_self_right, Nat.mod_eq_of_lt place]
  rw [mapBlock, getD_of_getElem? atExtent]
  constructor
  · rw [whole.blocks]
    calc
      block - extentStart + extentNum * layout.numBlocksPerExtent
          < layout.numBlocksPerExtent + extentNum * layout.numBlocksPerExtent := by omega
      _ = (extentNum + 1) * layout.numBlocksPerExtent := by
          rw [Nat.add_mul, Nat.one_mul, Nat.add_comm]
      _ ≤ layout.extentStarts.length * layout.numBlocksPerExtent := Nat.mul_le_mul_right _ bound
  · rw [volumeBlock, quotient, remainder, getD_of_getElem? atExtent]
    omega

end WholeBlocks

/-- The blocks of some ranges, in order. -/
def rangeBlocks (ranges : List (Nat × Nat)) : List Nat :=
  ranges.flatMap fun range => List.range' range.1 range.2

/-- A run and the one after it, unless that is empty. -/
theorem range_append_next {start given total next : Nat} (enough : given ≤ total)
    (adjacent : total - given = 0 ∨ next = start + given) :
    List.range' start given ++ List.range' next (total - given) = List.range' start total := by
  rcases adjacent with nothing | follows
  · rw [nothing, show given = total by omega]
    simp
  · rw [follows, range'_append_1, Nat.add_sub_cancel' enough]

namespace WholeBlocks

open PlacedExtents

variable {layout : VolumeLayout} (whole : WholeBlocks layout)

include whole

omit whole in
/-- A run of blocks inside one extent. -/
theorem range_volumeBlocks
    {extentNum extentStart : Nat} (atExtent : layout.extentStarts[extentNum]? = some extentStart)
    (place count : Nat) (fits : place + count ≤ layout.numBlocksPerExtent) :
    (List.range' (extentNum * layout.numBlocksPerExtent + place) count).map layout.volumeBlock =
      List.range' (extentStart + place) count := by
  rw [range'_eq_map_range, range'_eq_map_range, map_map]
  refine map_congr_left ?_
  intro offset mem
  have below := mem_range.mp mem
  have small : place + offset < layout.numBlocksPerExtent := by omega
  have quotient : (extentNum * layout.numBlocksPerExtent + (place + offset)) /
      layout.numBlocksPerExtent = extentNum := by
    rw [Nat.mul_comm, Nat.mul_add_div (by omega), Nat.div_eq_of_lt small, Nat.add_zero]
  have remainder : (extentNum * layout.numBlocksPerExtent + (place + offset)) %
      layout.numBlocksPerExtent = place + offset := by
    rw [Nat.mul_comm, Nat.mul_add_mod, Nat.mod_eq_of_lt small]
  simp only [Function.comp_apply]
  rw [Nat.add_assoc, volumeBlock, quotient, remainder, getD_of_getElem? atExtent, Nat.add_assoc]

/-- The ranges handed out are the first blocks of the map. -/
theorem handOutFrom_blocks {extentNum leftToGive : Nat} {starts : List Nat}
    (rest : layout.extentStarts.drop extentNum = starts)
    (fits : extentNum * layout.numBlocksPerExtent + leftToGive ≤ layout.numBlocks) :
    rangeBlocks (layout.handOutFrom leftToGive starts) =
      (List.range' (extentNum * layout.numBlocksPerExtent) leftToGive).map layout.volumeBlock := by
  induction starts generalizing extentNum leftToGive with
  | nil =>
    have past : layout.extentStarts.length ≤ extentNum := drop_eq_nil_iff.mp rest
    have whereBlocksEnd := Nat.mul_le_mul_right layout.numBlocksPerExtent past
    rw [whole.blocks] at fits
    have nothing : leftToGive = 0 := by omega
    rw [nothing]
    rfl
  | cons start starts ih =>
    have atExtent : layout.extentStarts[extentNum]? = some start := by
      rw [← head?_drop, rest]
      rfl
    have later : layout.extentStarts.drop (extentNum + 1) = starts := by
      rw [← tail_drop, rest]
      rfl
    rw [handOutFrom]
    by_cases nothing : leftToGive = 0
    · rw [if_pos nothing, nothing]
      rfl
    rw [if_neg nothing, whole.span]
    obtain ⟨bound, _⟩ := List.getElem?_eq_some_iff.mp atExtent
    have nextExtent : (extentNum + 1) * layout.numBlocksPerExtent ≤ layout.numBlocks := by
      rw [whole.blocks]
      exact Nat.mul_le_mul_right _ bound
    rw [Nat.add_mul, Nat.one_mul] at nextExtent
    set given := min leftToGive layout.numBlocksPerExtent with givenEq
    have here := range_volumeBlocks atExtent 0 given (by omega)
    rw [Nat.add_zero, Nat.add_zero] at here
    have afterFits : (extentNum + 1) * layout.numBlocksPerExtent + (leftToGive - given) ≤
          layout.numBlocks := by
      rw [Nat.add_mul, Nat.one_mul]
      omega
    rw [rangeBlocks, flatMap_cons, ← rangeBlocks, ih later afterFits, ← here, ← map_append]
    refine congrArg (List.map layout.volumeBlock) ?_
    exact range_append_next (by omega) (by rw [Nat.add_mul, Nat.one_mul]; omega)

/-- The blocks handed out are those of the run that was taken, in order. -/
theorem handOut_blocks {initBlock totalAlloced : Nat} (some : 0 < totalAlloced)
    (inside : initBlock + totalAlloced ≤ layout.numBlocks) :
    rangeBlocks (layout.handOut initBlock totalAlloced) =
      (List.range' initBlock totalAlloced).map layout.volumeBlock := by
  have isBlock : initBlock < layout.numBlocks := by omega
  obtain ⟨start, atExtent, _, below⟩ := whole.volumeBlock_eq isBlock
  have positive := whole.blocksPerExtent_pos isBlock
  set extentNum := initBlock / layout.numBlocksPerExtent with extentEq
  set place := initBlock % layout.numBlocksPerExtent with placeEq
  have parts : extentNum * layout.numBlocksPerExtent + place = initBlock := by
    rw [Nat.mul_comm]
    exact Nat.div_add_mod _ _
  have fromHere : layout.extentStarts.drop extentNum =
      start :: layout.extentStarts.drop (extentNum + 1) := by
    obtain ⟨bound, startEq⟩ := List.getElem?_eq_some_iff.mp atExtent
    rw [drop_eq_getElem_cons bound, startEq]
  obtain ⟨bound, _⟩ := List.getElem?_eq_some_iff.mp atExtent
  have nextExtent : (extentNum + 1) * layout.numBlocksPerExtent ≤ layout.numBlocks := by
    rw [whole.blocks]
    exact Nat.mul_le_mul_right _ bound
  rw [Nat.add_mul, Nat.one_mul] at nextExtent
  rw [handOut, ← extentEq, ← placeEq, fromHere]
  dsimp only
  rw [whole.span] at below ⊢
  set given := min totalAlloced (layout.numBlocksPerExtent - place) with givenEq
  have here := range_volumeBlocks atExtent place given (by omega)
  have afterFits : (extentNum + 1) * layout.numBlocksPerExtent + (totalAlloced - given) ≤
        layout.numBlocks := by
    rw [Nat.add_mul, Nat.one_mul]
    omega
  rw [rangeBlocks, flatMap_cons, ← rangeBlocks, whole.handOutFrom_blocks rfl afterFits]
  dsimp only
  rw [Nat.add_comm place start, ← here, ← map_append, parts]
  refine congrArg (List.map layout.volumeBlock) ?_
  exact range_append_next (by omega) (by rw [Nat.add_mul, Nat.one_mul]; omega)

omit whole in
theorem mem_handOutFrom {leftToGive : Nat} {starts : List Nat} {range : Nat × Nat}
    (mem : range ∈ layout.handOutFrom leftToGive starts) :
    range.1 ∈ starts ∧ range.2 ≤ layout.spanBlocks := by
  induction starts generalizing leftToGive with
  | nil => simp [handOutFrom] at mem
  | cons start starts ih =>
    rw [handOutFrom] at mem
    split at mem
    case isTrue => simp at mem
    case isFalse =>
      rcases mem_cons.mp mem with here | later
      · rw [here]
        exact ⟨mem_cons_self, Nat.min_le_right _ _⟩
      · obtain ⟨isStart, bound⟩ := ih later
        exact ⟨mem_cons_of_mem _ isStart, bound⟩

/-- Every range handed out lies in one extent. -/
theorem handOut_oneExtent
    {initBlock totalAlloced : Nat} (isBlock : initBlock < layout.numBlocks) {range : Nat × Nat}
    (mem : range ∈ layout.handOut initBlock totalAlloced) :
    ∃ start ∈ layout.extentStarts,
      start ≤ range.1 ∧ range.1 + range.2 ≤ start + layout.spanBlocks := by
  obtain ⟨_, _, _, below⟩ := whole.volumeBlock_eq isBlock
  rw [handOut] at mem
  split at mem
  case h_1 => simp at mem
  case h_2 start starts fromHere =>
    have startIn : start ∈ layout.extentStarts :=
      mem_of_mem_drop (by rw [fromHere]; exact mem_cons_self)
    rcases mem_cons.mp mem with here | later
    · rw [here]
      refine ⟨start, startIn, by simp, ?_⟩
      dsimp only
      omega
    · obtain ⟨isStart, bound⟩ := mem_handOutFrom later
      have laterIn : range.1 ∈ layout.extentStarts :=
        mem_of_mem_drop (by rw [fromHere]; exact mem_cons_of_mem _ isStart)
      exact ⟨range.1, laterIn, Nat.le_refl _, by omega⟩

end WholeBlocks

end Orly
