import Orly.WalFormat

namespace Orly

/-!
# The file map

What `TFileService` keeps of every file, and the operations that insert and remove
files.  Two maps are the same to a reader if they find the same files.
-/

open List

/-- `TFileObj::TKind`. -/
inductive FileKind where
  | dataFile
  | durableFile
  deriving Repr, DecidableEq

/-- `TFileObj`. -/
structure FileObj where
  kind : FileKind
  genId : Nat
  startingBlockId : Nat
  startingBlockOffset : Nat
  fileSize : Nat
  numKeys : Nat
  lowestSeq : Nat
  highestSeq : Nat
  deriving Repr, DecidableEq

/-- A file as an image block or a ring sector names it. -/
structure FileEntry where
  fileUid : StoreId
  file : FileObj
  deriving DecidableEq

/-- The uuid of sixteen zero bytes, which ends the entries of a sector or a block. -/
def nilUid : StoreId := ⟨List.replicate 16 0, length_zeroBytes⟩

/-- The files of one uid, by generation. -/
abbrev GenMap := AList (fun _ : Nat => FileObj)

/-- `TFileMap`. -/
abbrev FileMap := AList (fun _ : StoreId => GenMap)

namespace FileMap

/-- The files of a uid; a uid that is not there has none. -/
def gensOf (map : FileMap) (fileUid : StoreId) : GenMap :=
  (map.lookup fileUid).getD ∅

/-- Find a file. -/
def find (map : FileMap) (fileUid : StoreId) (genId : Nat) : Option FileObj :=
  (map.gensOf fileUid).lookup genId

/-- The files of the map, in the order an iteration meets them. -/
def entries (map : FileMap) : List FileEntry :=
  (AList.entries map).flatMap fun uid =>
    (AList.entries uid.2).map fun gen => ⟨uid.1, gen.2⟩

/-- `AddToMap`; `none` where it throws, for a file that is there already. -/
def addToMap (map : FileMap) (entry : FileEntry) : Option FileMap :=
  match map.find entry.fileUid entry.file.genId with
  | some _ => none
  | none =>
    some (map.insert entry.fileUid ((map.gensOf entry.fileUid).insert entry.file.genId entry.file))

/-- `RemoveFromMap`; `none` where it throws, for a file that is not there. -/
def removeFromMap (map : FileMap) (fileUid : StoreId) (genId : Nat) : Option FileMap :=
  match map.find fileUid genId with
  | some _ => some (map.insert fileUid ((map.gensOf fileUid).erase genId))
  | none => none

end FileMap

/-- `TOp`: its kind, and what of its file it carries. -/
inductive FileOp where
  | insertFile (entry : FileEntry)
  | removeFile (fileUid : StoreId) (genId : Nat)
  deriving DecidableEq

/-- The uid an operation names. -/
def FileOp.fileUid : FileOp → StoreId
  | .insertFile entry => entry.fileUid
  | .removeFile fileUid _ => fileUid

/-- `TOp::Apply` on a map. -/
def FileOp.apply (map : FileMap) : FileOp → Option FileMap
  | .insertFile entry => map.addToMap entry
  | .removeFile fileUid genId => map.removeFromMap fileUid genId

/-- Apply operations one after the other. -/
def applyOps (map : FileMap) (ops : List FileOp) : Option FileMap :=
  ops.foldlM FileOp.apply map

/-- Two maps find the same files. -/
def SameFiles (left right : FileMap) : Prop :=
  ∀ fileUid genId, left.find fileUid genId = right.find fileUid genId

/-! ## What the operations do to a lookup -/

namespace FileMap

variable {map after : FileMap} {entry : FileEntry} {fileUid otherUid : StoreId}
  {genId otherGen : Nat}

@[simp]
theorem find_empty : find ∅ fileUid genId = none := by
  simp [find, gensOf]

theorem find_insert (gens : GenMap) : find (AList.insert fileUid gens map) otherUid otherGen =
      if otherUid = fileUid then gens.lookup otherGen else map.find otherUid otherGen := by
  unfold find gensOf
  split
  case isTrue same => rw [same, AList.lookup_insert, Option.getD_some]
  case isFalse differs => rw [AList.lookup_insert_ne differs]

/-- A file is added where it is not found. -/
theorem addToMap_eq_some : map.addToMap entry = some after ↔
      map.find entry.fileUid entry.file.genId = none ∧ after = map.insert entry.fileUid
          ((map.gensOf entry.fileUid).insert entry.file.genId entry.file) := by
  unfold addToMap
  cases map.find entry.fileUid entry.file.genId with
  | none => simp [eq_comm]
  | some _ => simp

theorem find_addToMap (added : map.addToMap entry = some after) : after.find otherUid otherGen =
      if otherUid = entry.fileUid ∧ otherGen = entry.file.genId then some entry.file
      else map.find otherUid otherGen := by
  obtain ⟨_, rfl⟩ := addToMap_eq_some.mp added
  rw [find_insert]
  by_cases sameUid : otherUid = entry.fileUid
  · by_cases sameGen : otherGen = entry.file.genId
    · subst sameGen
      simp [sameUid, AList.lookup_insert]
    · simp [sameUid, sameGen, AList.lookup_insert_ne sameGen, find]
  · simp [sameUid]

/-- A file is removed where it is found. -/
theorem removeFromMap_eq_some : map.removeFromMap fileUid genId = some after ↔
      (map.find fileUid genId).isSome ∧
        after = map.insert fileUid ((map.gensOf fileUid).erase genId) := by
  unfold removeFromMap
  cases map.find fileUid genId with
  | none => simp
  | some _ => simp [eq_comm]

theorem find_removeFromMap (removed : map.removeFromMap fileUid genId = some after) :
    after.find otherUid otherGen =
      if otherUid = fileUid ∧ otherGen = genId then none
      else map.find otherUid otherGen := by
  obtain ⟨_, rfl⟩ := removeFromMap_eq_some.mp removed
  rw [find_insert]
  by_cases sameUid : otherUid = fileUid
  · by_cases sameGen : otherGen = genId
    · subst sameGen
      simp [sameUid, AList.lookup_erase]
    · simp [sameUid, sameGen, AList.lookup_erase_ne sameGen, find]
  · simp [sameUid]

end FileMap

/-! ## The same files -/

open FileMap

section Same

variable {left middle right leftAfter : FileMap} {op : FileOp} {ops : List FileOp}

theorem SameFiles.refl (map : FileMap) : SameFiles map map := fun _ _ => rfl

theorem SameFiles.symm (same : SameFiles left right) : SameFiles right left :=
  fun fileUid genId => (same fileUid genId).symm

theorem SameFiles.trans (first : SameFiles left middle) (second : SameFiles middle right) :
    SameFiles left right :=
  fun fileUid genId => (first fileUid genId).trans (second fileUid genId)

/-- An operation does to the same files the same. -/
theorem SameFiles.apply (same : SameFiles left right) (applied : op.apply left = some leftAfter) :
    ∃ rightAfter, op.apply right = some rightAfter ∧ SameFiles leftAfter rightAfter := by
  cases op with
  | insertFile entry =>
    have fresh := (addToMap_eq_some.mp applied).1
    rw [same] at fresh
    refine ⟨_, addToMap_eq_some.mpr ⟨fresh, rfl⟩, fun fileUid genId => ?_⟩
    rw [find_addToMap applied, same, find_addToMap (addToMap_eq_some.mpr ⟨fresh, rfl⟩)]
  | removeFile removedUid removedGen =>
    have present := (removeFromMap_eq_some.mp applied).1
    rw [same] at present
    refine ⟨_, removeFromMap_eq_some.mpr ⟨present, rfl⟩, fun fileUid genId => ?_⟩
    rw [find_removeFromMap applied, same,
      find_removeFromMap (removeFromMap_eq_some.mpr ⟨present, rfl⟩)]

theorem SameFiles.applyOps (same : SameFiles left right)
    (applied : applyOps left ops = some leftAfter) :
    ∃ rightAfter, applyOps right ops = some rightAfter ∧ SameFiles leftAfter rightAfter := by
  induction ops generalizing left right with
  | nil =>
    obtain rfl : left = leftAfter := Option.some.inj applied
    exact ⟨right, rfl, same⟩
  | cons op ops ih =>
    obtain ⟨leftNext, first, rest⟩ := Option.bind_eq_some_iff.mp applied
    obtain ⟨rightNext, rightFirst, sameNext⟩ := same.apply first
    obtain ⟨rightAfter, rightRest, sameAfter⟩ := ih sameNext rest
    exact ⟨rightAfter, Option.bind_eq_some_iff.mpr ⟨rightNext, rightFirst, rightRest⟩, sameAfter⟩

theorem applyOps_append (map : FileMap) (first second : List FileOp) :
    applyOps map (first ++ second) =
      (applyOps map first).bind fun next => applyOps next second := by
  unfold applyOps
  rw [foldlM_append]
  rfl

end Same

/-! ## Writing a map out and reading it in -/

/-- Every file of a map is under its own generation, and none under the nil uid. -/
structure FileMap.Keyed (map : FileMap) : Prop where
  genId : ∀ fileUid genId file, map.find fileUid genId = some file → file.genId = genId
  notNil : ∀ genId, map.find nilUid genId = none

/-- A list names exactly the files of a map, each once. -/
structure FilesOf (listed : List FileEntry) (map : FileMap) : Prop where
  distinct : listed.Pairwise fun left right =>
    ¬ (left.fileUid = right.fileUid ∧ left.file.genId = right.file.genId)
  mem : ∀ fileUid genId file, map.find fileUid genId = some file ↔
    file.genId = genId ∧ ⟨fileUid, file⟩ ∈ listed

/-- Add files one after the other. -/
def addEntries (map : FileMap) (listed : List FileEntry) : Option FileMap :=
  listed.foldlM FileMap.addToMap map

section Listing

variable {map : FileMap} {listed : List FileEntry}

/-- The files an iteration meets are the entries of the two maps. -/
theorem FileMap.mem_entries (keyed : map.Keyed) (fileUid : StoreId) (genId : Nat) (file : FileObj) :
    map.find fileUid genId = some file ↔ file.genId = genId ∧ ⟨fileUid, file⟩ ∈ map.entries := by
  simp only [entries, mem_flatMap, mem_map]
  constructor
  · intro found
    have sameGen := keyed.genId fileUid genId file found
    unfold find gensOf at found
    cases uidLookup : map.lookup fileUid with
    | none => simp [uidLookup] at found
    | some gens =>
      rw [uidLookup, Option.getD_some] at found
      exact ⟨sameGen, ⟨fileUid, gens⟩, AList.mem_lookup_iff.mp uidLookup,
        ⟨genId, file⟩, AList.mem_lookup_iff.mp found, rfl⟩
  · rintro ⟨rfl, ⟨uid, gens⟩, uidMember, ⟨gen, other⟩, genMember, same⟩
    obtain ⟨rfl, rfl⟩ := FileEntry.mk.inj same
    have uidLookup : map.lookup uid = some gens := AList.mem_lookup_iff.mpr uidMember
    have genLookup : gens.lookup gen = some other := AList.mem_lookup_iff.mpr genMember
    have found : map.find uid gen = some other := by
      rw [find, gensOf, uidLookup, Option.getD_some, genLookup]
    rw [keyed.genId uid gen other found]
    exact found

/-- An iteration over a map meets each of its files once. -/
theorem FileMap.filesOf_entries (keyed : map.Keyed) : FilesOf map.entries map where
  distinct := by
    refine pairwise_flatMap.mpr ⟨fun uid uidMember => ?_, ?_⟩
    · have gens := nodupKeys_iff_pairwise.mp uid.2.nodupKeys
      refine pairwise_map.mpr (gens.imp_of_mem fun leftMember rightMember differ => ?_)
      have keyOf : ∀ {gen : Sigma fun _ : Nat => FileObj}, gen ∈ AList.entries uid.2 →
          gen.2.genId = gen.1 := by
        intro gen mem
        refine keyed.genId uid.1 gen.1 gen.2 ?_
        have uidLookup : map.lookup uid.1 = some uid.2 := AList.mem_lookup_iff.mpr uidMember
        rw [find, gensOf, uidLookup, Option.getD_some]
        exact AList.mem_lookup_iff.mpr mem
      rintro ⟨_, sameGen⟩
      exact differ ((keyOf leftMember).symm.trans (sameGen.trans (keyOf rightMember)))
    · have uids := nodupKeys_iff_pairwise.mp map.nodupKeys
      refine uids.imp fun {left right} differ => ?_
      intro leftEntry leftMember rightEntry rightMember same
      obtain ⟨_, _, rfl⟩ := mem_map.mp leftMember
      obtain ⟨_, _, rfl⟩ := mem_map.mp rightMember
      exact differ same.1
  mem := mem_entries keyed

/-- Files that are not there yet, each listed once, are added without a throw. -/
theorem addEntries_spec (start : FileMap)
    (distinct : listed.Pairwise fun left right =>
      ¬ (left.fileUid = right.fileUid ∧ left.file.genId = right.file.genId))
    (fresh : ∀ entry ∈ listed, start.find entry.fileUid entry.file.genId = none) :
    ∃ loaded, addEntries start listed = some loaded ∧
      ∀ fileUid genId file, loaded.find fileUid genId = some file ↔
        (file.genId = genId ∧ ⟨fileUid, file⟩ ∈ listed) ∨ start.find fileUid genId = some file := by
  induction listed generalizing start with
  | nil => exact ⟨start, rfl, by simp⟩
  | cons entry others ih =>
    obtain ⟨differs, othersDistinct⟩ := pairwise_cons.mp distinct
    obtain ⟨next, added⟩ : ∃ next, start.addToMap entry = some next :=
      ⟨_, addToMap_eq_some.mpr ⟨fresh entry mem_cons_self, rfl⟩⟩
    have othersFresh : ∀ other ∈ others,
        next.find other.fileUid other.file.genId = none := by
      intro other mem
      rw [find_addToMap added, if_neg]
      · exact fresh other (mem_cons_of_mem _ mem)
      · rintro ⟨sameUid, sameGen⟩
        exact differs other mem ⟨sameUid.symm, sameGen.symm⟩
    obtain ⟨loaded, isLoaded, finds⟩ := ih next othersDistinct othersFresh
    refine ⟨loaded, Option.bind_eq_some_iff.mpr ⟨next, added, isLoaded⟩, ?_⟩
    intro fileUid genId file
    rw [finds, find_addToMap added]
    by_cases same : fileUid = entry.fileUid ∧ genId = entry.file.genId
    · obtain ⟨rfl, rfl⟩ := same
      have entryFresh := fresh entry mem_cons_self
      have notOther : ¬ (file.genId = entry.file.genId ∧
          (⟨entry.fileUid, file⟩ : FileEntry) ∈ others) :=
        fun other => differs _ other.2 ⟨rfl, other.1.symm⟩
      simp only [and_self, if_true, Option.some.injEq, mem_cons, entryFresh, reduceCtorEq, or_false]
      constructor
      · rintro (other | rfl)
        · exact absurd other notOther
        · exact ⟨rfl, .inl rfl⟩
      · rintro ⟨sameGen, isEntry | other⟩
        · exact .inr (congrArg FileEntry.file isEntry).symm
        · exact absurd ⟨sameGen, other⟩ notOther
    · rw [if_neg same, mem_cons]
      constructor
      · rintro (⟨sameGen, other⟩ | found)
        · exact .inl ⟨sameGen, .inr other⟩
        · exact .inr found
      · rintro (⟨rfl, rfl | other⟩ | found)
        · exact absurd ⟨rfl, rfl⟩ same
        · exact .inl ⟨rfl, other⟩
        · exact .inr found

/-- What lists the files of a map loads as a map with the same files. -/
theorem FilesOf.addEntries (filesOf : FilesOf listed map) :
    ∃ loaded, addEntries ∅ listed = some loaded ∧ SameFiles loaded map := by
  obtain ⟨loaded, isLoaded, finds⟩ := addEntries_spec ∅ filesOf.distinct fun _ _ => find_empty
  refine ⟨loaded, isLoaded, fun fileUid genId => Option.ext fun file => ?_⟩
  rw [finds, filesOf.mem, find_empty]
  simp

theorem FilesOf.perm {arranged : List FileEntry} (filesOf : FilesOf listed map)
    (perm : arranged.Perm listed) :
    FilesOf arranged map where
  distinct :=
    (perm.pairwise_iff fun differ same => differ ⟨same.1.symm, same.2.symm⟩).mpr filesOf.distinct
  mem := fun fileUid genId file => by rw [filesOf.mem, perm.mem_iff]

end Listing

/-! ## Keyed maps -/

theorem keyed_empty : FileMap.Keyed ∅ where
  genId := by simp
  notNil := by simp

theorem FileMap.Keyed.same {left right : FileMap} (keyed : left.Keyed)
    (same : SameFiles left right) :
    right.Keyed where
  genId := fun fileUid genId file found =>
    keyed.genId fileUid genId file ((same fileUid genId).trans found)
  notNil := fun genId => (same nilUid genId).symm.trans (keyed.notNil genId)

/-- An operation that does not insert under the nil uid keeps a map keyed. -/
theorem FileMap.Keyed.apply
    {map after : FileMap} {op : FileOp} (keyed : map.Keyed) (named : op.fileUid ≠ nilUid)
    (applied : op.apply map = some after) :
    after.Keyed := by
  cases op with
  | insertFile entry =>
    constructor
    case genId =>
      intro fileUid genId file found
      rw [find_addToMap applied] at found
      split at found
      case isTrue same =>
        cases found
        exact same.2.symm
      case isFalse => exact keyed.genId fileUid genId file found
    case notNil =>
      intro genId
      rw [find_addToMap applied, if_neg fun same => named same.1.symm]
      exact keyed.notNil genId
  | removeFile removedUid removedGen =>
    constructor
    case genId =>
      intro fileUid genId file found
      rw [find_removeFromMap applied] at found
      split at found
      case isTrue => contradiction
      case isFalse => exact keyed.genId fileUid genId file found
    case notNil =>
      intro genId
      rw [find_removeFromMap applied]
      split
      case isTrue => rfl
      case isFalse => exact keyed.notNil genId

theorem FileMap.Keyed.applyOps {map after : FileMap} {ops : List FileOp} (keyed : map.Keyed)
    (named : ∀ op ∈ ops, op.fileUid ≠ nilUid) (applied : applyOps map ops = some after) :
    after.Keyed := by
  induction ops generalizing map with
  | nil => exact Option.some.inj applied ▸ keyed
  | cons op ops ih =>
    obtain ⟨next, first, rest⟩ := Option.bind_eq_some_iff.mp applied
    exact ih (keyed.apply (named op mem_cons_self) first)
      (fun other mem => named other (mem_cons_of_mem _ mem)) rest

end Orly
