import XLayerErigon.Concurrent.JobQueue
import XLayerErigon.DataStream.ReadParsedProto

/-
  Reading the blocks of a range of batches from the stream, in one pass or with several workers.

  The one pass starts at the bookmark of the first batch and goes on to the end of the last.  The
  workers read every batch from its own bookmark.  An error of a worker is seen only while there
  are batches to be handed out.

  Main results:
    * `readBatchLoop_ok_iff`
    * `readBatchesLoop_ok_iff`
    * `readBatches_concurrent_iff`
-/

namespace XLayerErigon.DataStream

open Concurrent Relation

-- The Stream and Its Iterators

abbrev FullL2Block := L2Block × List Transaction

/- What the library returns for entries and bookmarks. -/
structure StreamServer where
  entries : Files
  getBookmark : Nat → Except String Nat

namespace StreamServer

/- The total is one more than the last entry's number. -/
def limit (srv : StreamServer) : Nat := srv.entries.length

/-
  The number of the last entry wraps around in an empty stream, and the library is then asked for
  an entry.
-/
def iterator (srv : StreamServer) (start : Nat) : Files :=
  if srv.entries.isEmpty then
    [.error "invalid entry number"]
  else
    srv.entries.drop start

end StreamServer

def isEnd (number : Nat) : ParsedEntry → Bool
  | .batchEnd last => decide (last.number = number)
  | _ => false

def blockIn (number : Nat) : ParsedEntry → Option FullL2Block
  | .l2Block block txs =>
      if block.batchNumber = number then some (block, txs)
      else none
  | _ => none

/- The loop of a worker.  Every round takes an entry, so a round for each entry is enough. -/
def readBatchLoop (u : Unmarshal) (limit batchNum : Nat) :
    Nat → Files → List FullL2Block → Except Failure (List FullL2Block)
  | 0, _, blocks => .ok blocks
  | rounds + 1, files, blocks =>
      match (readParsedProto u limit files).parsedEntry with
      | .error e => .error e
      | .ok none => .ok blocks
      | .ok (some entry) =>
          if isEnd batchNum entry then
            .ok blocks
          else
            readBatchLoop u limit batchNum rounds (readParsedProto u limit files).rest
              (blocks ++ (blockIn batchNum entry).toList)

/- The job of a worker: a batch from its bookmark on. -/
def StreamServer.readBatch (u : Unmarshal) (srv : StreamServer)
    (batchNum : Nat) : Except Failure (List FullL2Block) :=
  match srv.getBookmark batchNum with
  | .error e => .error (.error e)
  | .ok position =>
    readBatchLoop u srv.limit batchNum (srv.iterator position).length (srv.iterator position) []

/- An index is an unsigned difference, so it is out of range for a number below the first. -/
def placeEntry (start : Nat) (batches : List (List FullL2Block)) :
    ParsedEntry → Except Failure (List (List FullL2Block))
  | .batchStart batch =>
      if batch.number < start then
        .error .panic
      else
        sliceSet batches (batch.number - start) []
  | .l2Block block txs =>
      if block.batchNumber < start then
        .error .panic
      else
        match sliceIndex batches (block.batchNumber - start) with
        | .error e => .error e
        | .ok blocks =>
            sliceSet batches (block.batchNumber - start) (blocks ++ [(block, txs)])
  | _ => .ok batches

def readBatchesLoop (u : Unmarshal) (limit start stop : Nat) :
    Nat → Files → List (List FullL2Block) → Except Failure (List (List FullL2Block))
  | 0, _, batches => .ok batches
  | rounds + 1, files, batches =>
      match (readParsedProto u limit files).parsedEntry with
      | .error e => .error e
      | .ok none => .ok batches
      | .ok (some entry) =>
          if isEnd stop entry then
            .ok batches
          else
            match placeEntry start batches entry with
            | .error e => .error e
            | .ok batches =>
                readBatchesLoop u limit start stop rounds
                  (readParsedProto u limit files).rest batches

def StreamServer.readBatches (u : Unmarshal) (srv : StreamServer) (start stop : Nat) :
    Except Failure (List (List FullL2Block)) :=
  match srv.getBookmark start with
  | .error e => .error (.error e)
  | .ok position =>
    readBatchesLoop u srv.limit start stop (srv.iterator position).length (srv.iterator position)
      (List.replicate (stop - start + 1) [])

-- Several Workers

def maxWorkers : Nat := 16

def batchNumbers (start stop : Nat) : List Nat := List.range' start (stop - start + 1)

/- A panic of one party ends the program. -/
def fatal (e : Failure) : Bool := decide (e = .panic)

/- The batch of a worker that left is never filled in. -/
def assemble (start stop : Nat) (results : List (Nat × List FullL2Block)) :
    List (List FullL2Block) :=
  (batchNumbers start stop).map fun batchNum =>
    ((results.find? fun done => done.1 == batchNum).map Prod.snd).getD []

def bookmarkError (srv : StreamServer) (batchNum : Nat) : Option String :=
  match srv.getBookmark batchNum with
  | .error e => some e
  | .ok _ => none

/-
  What the call returns, over all schedules.  The number of the last batch is incremented by the
  loops; if it is the largest there is, they do not end.  The bookmarks are looked up by one party
  for each batch, in any order, and the first error is returned.
-/
inductive Returns (u : Unmarshal) (srv : StreamServer) (start stop : Nat) :
    Option (Except Failure (List (List FullL2Block))) → Prop where
  | endless (hLast : ¬ stop + 1 < 2 ^ 64) :
      Returns u srv start stop none
  | noBookmark (order : List Nat) (e : String) (hLast : stop + 1 < 2 ^ 64)
      (hOrder : order.Perm (batchNumbers start stop))
      (hFirst : (order.filterMap (bookmarkError srv)).head? = some e) :
      Returns u srv start stop (some (.error (.error e)))
  | read (final : Jobs Nat (List FullL2Block) Failure) (hLast : stop + 1 < 2 ^ 64)
      (hBookmarks : ∀ batchNum ∈ batchNumbers start stop, bookmarkError srv batchNum = none)
      (hRun : ReflTransGen (Jobs.Step maxWorkers fatal (srv.readBatch u))
        (Jobs.start (batchNumbers start stop)) final)
      (hStuck : Stuck (Jobs.Step maxWorkers fatal (srv.readBatch u)) final) :
      Returns u srv start stop (final.outcome.map (Except.map (assemble start stop)))

/-
  In every schedule the call returns a list exactly if the one pass returns the same list, and an
  error if a batch cannot be read.
-/
def ReadsTheSame (u : Unmarshal) (srv : StreamServer) (start stop : Nat) : Prop :=
  ∀ returned, Returns u srv start stop returned →
    ∃ result, returned = some result ∧
      (∀ batches, result = .ok batches ↔ srv.readBatches u start stop = .ok batches) ∧
      ((∃ batchNum ∈ batchNumbers start stop, ∃ e,
          srv.readBatch u batchNum = .error e) →
        ∃ message, result = .error (.error message))

-- What the Stream Holds

/- All calls of the reader, and the error they end with. -/
def calls (u : Unmarshal) (limit : Nat) :
    Nat → Files → List ParsedEntry × Option Failure
  | 0, _ => ([], none)
  | rounds + 1, files =>
      match (readParsedProto u limit files).parsedEntry with
      | .error e => ([], some e)
      | .ok none => ([], none)
      | .ok (some entry) =>
          (entry :: (calls u limit rounds (readParsedProto u limit files).rest).1,
            (calls u limit rounds (readParsedProto u limit files).rest).2)

/- What is read from the bookmark of a batch on. -/
def StreamServer.content (u : Unmarshal) (srv : StreamServer)
    (batchNum : Nat) : List ParsedEntry × Option Failure :=
  match srv.getBookmark batchNum with
  | .error e => ([], some (.error e))
  | .ok position =>
    calls u srv.limit (srv.iterator position).length (srv.iterator position)

/- The end of the batch, or of the stream, comes first. -/
def Readable (number : Nat) (content : List ParsedEntry × Option Failure) : Prop :=
  (∃ entry ∈ content.1, isEnd number entry = true) ∨ content.2 = none

def upToEnd (number : Nat) (entries : List ParsedEntry) : List ParsedEntry :=
  entries.takeWhile fun entry => !isEnd number entry

def blocksOf (number : Nat) (entries : List ParsedEntry) : List FullL2Block :=
  entries.filterMap (blockIn number)

def isStart (number : Nat) : ParsedEntry → Bool
  | .batchStart batch => decide (batch.number = number)
  | _ => false

/- What is behind the last start of the batch, if any. -/
def behindStart (number : Nat) (entries : List ParsedEntry) : List ParsedEntry :=
  (entries.reverse.takeWhile fun entry => !isStart number entry).reverse

/- No start or block of a batch outside of the range. -/
def InRange (start stop : Nat) : ParsedEntry → Prop
  | .batchStart batch =>
      start ≤ batch.number ∧ batch.number ≤ stop
  | .l2Block block _ =>
      start ≤ block.batchNumber ∧ block.batchNumber ≤ stop
  | _ => True

/- The one pass comes to the end of the range. -/
def Sequential (u : Unmarshal) (srv : StreamServer) (start stop : Nat) : Prop :=
  Readable stop (srv.content u start) ∧
    ∀ entry ∈ upToEnd stop (srv.content u start).1, InRange start stop entry

/-
  Either a bookmark is missing and the one pass fails too, or every batch can be read from its
  bookmark and has there the blocks that the one pass finds behind its last start.
-/
def Regular (u : Unmarshal) (srv : StreamServer) (start stop : Nat) : Prop :=
  stop + 1 < 2 ^ 64 ∧
  (((∃ batchNum ∈ batchNumbers start stop,
      ∃ e, srv.getBookmark batchNum = .error e) ∧ ¬ Sequential u srv start stop) ∨
    ((∀ batchNum ∈ batchNumbers start stop,
        Readable batchNum (srv.content u batchNum)) ∧
      Sequential u srv start stop ∧
      ∀ batchNum ∈ batchNumbers start stop,
        blocksOf batchNum (upToEnd batchNum (srv.content u batchNum).1) =
          blocksOf batchNum (behindStart batchNum (upToEnd stop (srv.content u start).1))))

-- What the Loops Compute

section

variable {u : Unmarshal} {limit : Nat}

variable {entry : ParsedEntry}

theorem calls_nil (rounds : Nat) : calls u limit rounds [] = ([], none) := by
  cases rounds with
  | zero => rfl
  | succ rounds => simp [calls, readParsedProto]

theorem readable_cons {number : Nat} (hOther : isEnd number entry = false)
    (content : List ParsedEntry × Option Failure) :
    Readable number (entry :: content.1, content.2) ↔ Readable number content := by
  simp [Readable, hOther]

theorem upToEnd_cons {number : Nat} (hOther : isEnd number entry = false)
    (entries : List ParsedEntry) :
    upToEnd number (entry :: entries) = entry :: upToEnd number entries := by
  simp [upToEnd, hOther]

theorem upToEnd_end {number : Nat} (hEnd : isEnd number entry = true) (entries : List ParsedEntry) :
    upToEnd number (entry :: entries) = [] := by
  simp [upToEnd, hEnd]

theorem blocksOf_cons (number : Nat) (entry : ParsedEntry) (entries : List ParsedEntry) :
    blocksOf number (entry :: entries) =
      (blockIn number entry).toList ++ blocksOf number entries := by
  unfold blocksOf
  cases hBlock : blockIn number entry with
  | none => simp [hBlock]
  | some block => simp [hBlock]

/- The worker finds the blocks up to the end of its batch. -/
theorem readBatchLoop_ok_iff (batchNum rounds : Nat) (files : Files)
    (before blocks : List FullL2Block) :
    readBatchLoop u limit batchNum rounds files before =
        .ok blocks ↔
      Readable batchNum (calls u limit rounds files) ∧
      before ++ blocksOf batchNum (upToEnd batchNum (calls u limit rounds files).1) = blocks := by
  induction rounds generalizing files before with
  | zero => simp [readBatchLoop, calls, Readable, upToEnd, blocksOf]
  | succ rounds ih =>
    unfold readBatchLoop calls
    cases hEntry : (readParsedProto u limit files).parsedEntry with
    | error e => simp [Readable]
    | ok parsed =>
      cases parsed with
      | none => simp [Readable, upToEnd, blocksOf]
      | some entry =>
        cases hEnd : isEnd batchNum entry with
        | true => simp [Readable, hEnd, upToEnd_end hEnd, blocksOf]
        | false =>
          simp only [hEnd, Bool.false_eq_true, if_false]
          rw [ih, readable_cons hEnd, upToEnd_cons hEnd, blocksOf_cons, List.append_assoc]

/- What an entry makes of the blocks of one batch. -/
def track (number : Nat) (blocks : List FullL2Block) (entry : ParsedEntry) : List FullL2Block :=
  if isStart number entry then []
  else blocks ++ (blockIn number entry).toList

theorem set_eq_mapIdx {α : Type} (xs : List α) (f : α → α) {i : Nat} (hInside : i < xs.length) :
    xs.set i (f xs[i]) = xs.mapIdx fun j x => if j = i then f x else x := by
  apply List.ext_getElem
  · simp
  · intro j hLeft hRight
    rw [List.getElem_set, List.getElem_mapIdx]
    by_cases hHere : i = j
    · subst hHere
      simp
    · simp [hHere, Ne.symm hHere]

@[simp]
theorem mapIdx_same {α : Type} (xs : List α) : xs.mapIdx (fun _ x => x) = xs := by
  apply List.ext_getElem
  · simp
  · simp

/- An entry that changes the blocks of one batch. -/
theorem placeEntry_at_iff {start stop number : Nat} {batches : List (List FullL2Block)}
    (hLength : batches.length = stop - start + 1) {f : List FullL2Block → List FullL2Block}
    (hTrack : ∀ n blocks, track n blocks entry = if n = number then f blocks else blocks)
    (hOutside : number < start ∨ batches.length ≤ number - start →
      placeEntry start batches entry = .error .panic)
    (hInside : ∀ hLt : number - start < batches.length, start ≤ number →
      placeEntry start batches entry =
        .ok (batches.set (number - start) (f batches[number - start])))
    (hOrder : start ≤ stop) (next : List (List FullL2Block)) :
    placeEntry start batches entry = .ok next ↔
      (start ≤ number ∧ number ≤ stop) ∧
      batches.mapIdx (fun i blocks => track (start + i) blocks entry) = next := by
  by_cases hRange : start ≤ number ∧ number ≤ stop
  · have hLt : number - start < batches.length := by omega
    have hMap : (fun i blocks => track (start + i) blocks entry) =
        fun i blocks => if i = number - start then f blocks else blocks := by
      funext i blocks
      rw [hTrack]
      by_cases hHere : i = number - start
      · rw [if_pos hHere, if_pos (by omega)]
      · rw [if_neg hHere, if_neg (by omega)]
    rw [hInside hLt hRange.1, set_eq_mapIdx batches f hLt, hMap, Except.ok.injEq]
    exact (and_iff_right hRange).symm
  · rw [hOutside (by omega)]
    simp [hRange]

/- An entry in range changes the batch it names only. -/
theorem placeEntry_ok_iff {start stop : Nat} (hOrder : start ≤ stop)
    {batches : List (List FullL2Block)} (hLength : batches.length = stop - start + 1)
    (entry : ParsedEntry) (next : List (List FullL2Block)) :
    placeEntry start batches entry = .ok next ↔
      InRange start stop entry ∧
      batches.mapIdx (fun i blocks => track (start + i) blocks entry) = next := by
  cases entry with
  | batchStart batch =>
    have hTrack : ∀ n blocks, track n blocks (.batchStart batch) =
        if n = batch.number then [] else blocks := by
      intro n blocks
      simp [track, isStart, blockIn, eq_comm]
    refine placeEntry_at_iff hLength hTrack ?_ ?_ hOrder next
    · rintro (hBelow | hAbove)
      · simp [placeEntry, hBelow]
      · simp [placeEntry, sliceSet, hAbove]
    · intro hLt hFrom
      simp [placeEntry, sliceSet_of_lt _ hLt, hFrom]
  | l2Block block txs =>
    have hTrack : ∀ n blocks, track n blocks (.l2Block block txs) =
        if n = block.batchNumber then blocks ++ [(block, txs)] else blocks := by
      intro n blocks
      by_cases hHere : block.batchNumber = n
      · simp [track, isStart, blockIn, hHere]
      · simp [track, isStart, blockIn, hHere, Ne.symm hHere]
    refine placeEntry_at_iff hLength hTrack ?_ ?_ hOrder next
    · rintro (hBelow | hAbove)
      · simp [placeEntry, hBelow]
      · simp [placeEntry, sliceIndex, hAbove]
    · intro hLt hFrom
      simp [placeEntry, sliceIndex_of_some (List.getElem?_eq_getElem hLt), sliceSet_of_lt _ hLt,
        Nat.not_lt.mpr hFrom]
  | bookmark mark => simp [placeEntry, InRange, track, isStart, blockIn]
  | gerUpdate update => simp [placeEntry, InRange, track, isStart, blockIn]
  | batchEnd last => simp [placeEntry, InRange, track, isStart, blockIn]
  | l2BlockEnd number => simp [placeEntry, InRange, track, isStart, blockIn]

/- The one pass tracks all batches of the range. -/
theorem readBatchesLoop_ok_iff {start stop : Nat} (hOrder : start ≤ stop) (rounds : Nat)
    (files : Files) {batches : List (List FullL2Block)}
    (hLength : batches.length = stop - start + 1) (final : List (List FullL2Block)) :
    readBatchesLoop u limit start stop rounds files batches =
        .ok final ↔
      (Readable stop (calls u limit rounds files) ∧
        ∀ entry ∈ upToEnd stop (calls u limit rounds files).1, InRange start stop entry) ∧
      batches.mapIdx (fun i blocks =>
        (upToEnd stop (calls u limit rounds files).1).foldl
          (track (start + i)) blocks) = final := by
  induction rounds generalizing files batches with
  | zero => simp [readBatchesLoop, calls, Readable, upToEnd]
  | succ rounds ih =>
    unfold readBatchesLoop calls
    cases hEntry : (readParsedProto u limit files).parsedEntry with
    | error e => simp [Readable]
    | ok parsed =>
      cases parsed with
      | none => simp [Readable, upToEnd]
      | some entry =>
        cases hEnd : isEnd stop entry with
        | true => simp [Readable, hEnd, upToEnd_end hEnd]
        | false =>
          have hPlace := placeEntry_ok_iff hOrder hLength entry
          simp only [hEnd, Bool.false_eq_true, if_false]
          rw [readable_cons hEnd, upToEnd_cons hEnd]
          cases hPlaced : placeEntry start batches entry with
          | error e =>
            have hOutside : ¬ InRange start stop entry := by
              intro hIn
              have hOk := (hPlace _).mpr ⟨hIn, rfl⟩
              rw [hPlaced] at hOk
              cases hOk
            simp [hOutside]
          | ok next =>
            rcases (hPlace next).mp hPlaced with ⟨hIn, rfl⟩
            simp only
            rw [ih _ (by simp [hLength])]
            simp [hIn, List.mapIdx_mapIdx, Function.comp_def]

/- Tracking a batch gives the blocks behind its last start. -/
theorem foldl_track (number : Nat) (entries : List ParsedEntry) :
    entries.foldl (track number) [] = blocksOf number (behindStart number entries) := by
  induction entries using List.reverseRecOn with
  | nil => rfl
  | append_singleton entries entry ih =>
    rw [List.foldl_append, ih]
    cases hStart : isStart number entry with
    | true => simp [track, hStart, behindStart, blocksOf]
    | false =>
      have hBehind :
          behindStart number (entries ++ [entry]) = behindStart number entries ++ [entry] := by
        simp [behindStart, hStart]
      have hLast := blocksOf_cons number entry []
      simp only [blocksOf, List.filterMap_nil, List.append_nil] at hLast
      rw [hBehind]
      unfold blocksOf
      rw [List.filterMap_append, hLast]
      simp [track, hStart]

end

theorem readBatch_ok_iff (u : Unmarshal) (srv : StreamServer) (batchNum : Nat)
    (blocks : List FullL2Block) :
    srv.readBatch u batchNum = .ok blocks ↔
      Readable batchNum (srv.content u batchNum) ∧
      blocksOf batchNum (upToEnd batchNum (srv.content u batchNum).1) = blocks := by
  unfold StreamServer.readBatch StreamServer.content
  cases hBookmark : srv.getBookmark batchNum with
  | error e => simp [Readable]
  | ok position => simpa using readBatchLoop_ok_iff batchNum _ _ [] blocks

theorem readBatches_ok_iff (u : Unmarshal) (srv : StreamServer) {start stop : Nat}
    (hOrder : start ≤ stop) (batches : List (List FullL2Block)) :
    srv.readBatches u start stop = .ok batches ↔
      Sequential u srv start stop ∧
      (batchNumbers start stop).map (fun batchNum =>
        blocksOf batchNum (behindStart batchNum
          (upToEnd stop (srv.content u start).1))) = batches := by
  unfold Sequential StreamServer.readBatches StreamServer.content
  cases hBookmark : srv.getBookmark start with
  | error e => simp [Readable]
  | ok position =>
    simp only
    rw [readBatchesLoop_ok_iff hOrder _ _ (by simp)]
    have hSame : (List.replicate (stop - start + 1) ([] : List FullL2Block)).mapIdx (fun i blocks =>
      (upToEnd stop (calls u srv.limit (srv.iterator position).length
        (srv.iterator position)).1).foldl (track (start + i)) blocks) =
        (batchNumbers start stop).map (fun batchNum =>
          blocksOf batchNum (behindStart batchNum
            (upToEnd stop (calls u srv.limit
              (srv.iterator position).length (srv.iterator position)).1))) := by
      apply List.ext_getElem
      · simp [batchNumbers]
      · intro i hLeft hRight
        simp [batchNumbers, foldl_track]
    rw [hSame]

-- One Pass and Several Workers

section

variable {u : Unmarshal} {srv : StreamServer} {start stop : Nat}

/- The results of all batches, put in their places. -/
theorem assemble_eq {results : List (Nat × List FullL2Block)}
    (hPerm : (results.map Prod.fst).Perm (batchNumbers start stop))
    (hResults : ∀ done ∈ results, srv.readBatch u done.1 = .ok done.2) :
    assemble start stop results = (batchNumbers start stop).map fun batchNum =>
        blocksOf batchNum (upToEnd batchNum (srv.content u batchNum).1) := by
  unfold assemble
  apply List.map_congr_left
  intro batchNum hMem
  rcases List.mem_map.mp (hPerm.mem_iff.mpr hMem) with ⟨done, hDone, hNumber⟩
  cases hFind : results.find? (fun done => done.1 == batchNum) with
  | none =>
    rw [List.find?_eq_none] at hFind
    exact absurd (by simp [hNumber]) (hFind done hDone)
  | some found =>
    have hNumberFound : found.1 = batchNum := by simpa using List.find?_some hFind
    have hOk := hResults found (List.mem_of_find?_eq_some hFind)
    rw [hNumberFound] at hOk
    exact ((readBatch_ok_iff u srv batchNum found.2).mp hOk).2.symm

/- If all batches can be read, all schedules agree. -/
theorem outcome_of_readable
    (hReadable : ∀ batchNum ∈ batchNumbers start stop, Readable batchNum (srv.content u batchNum))
    {final : Jobs Nat (List FullL2Block) Failure}
    (hRun : ReflTransGen (Jobs.Step maxWorkers fatal (srv.readBatch u))
      (Jobs.start (batchNumbers start stop)) final)
    (hStuck : Stuck (Jobs.Step maxWorkers fatal (srv.readBatch u)) final) :
    final.outcome.map (Except.map (assemble start stop)) =
      some (.ok ((batchNumbers start stop).map
        fun batchNum => blocksOf batchNum (upToEnd batchNum (srv.content u batchNum).1))) := by
  have hWork : ∀ batchNum ∈ batchNumbers start stop,
      ∃ blocks, srv.readBatch u batchNum = .ok blocks := by
    intro batchNum hMem
    exact ⟨_, (readBatch_ok_iff u srv batchNum _).mpr ⟨hReadable batchNum hMem, rfl⟩⟩
  rcases Jobs.outcome_of_stuck hStuck with ⟨outcome, hOutcome⟩
  rcases Jobs.results_of_success (by decide) hWork hRun
    hOutcome with ⟨results, rfl, hPerm, hResults⟩
  rw [hOutcome, Option.map_some, ← assemble_eq hPerm hResults]
  rfl

theorem bookmarkError_eq_none_iff {batchNum : Nat} :
    bookmarkError srv batchNum = none ↔ ¬ ∃ e, srv.getBookmark batchNum = .error e := by
  unfold bookmarkError
  cases srv.getBookmark batchNum with
  | error e => simp
  | ok position => simp

/- Without its bookmark a batch cannot be read. -/
theorem bookmark_of_readable {batchNum : Nat}
    (hReadable : Readable batchNum (srv.content u batchNum)) :
    bookmarkError srv batchNum = none := by
  rw [bookmarkError_eq_none_iff]
  rintro ⟨e, hError⟩
  simp [Readable, StreamServer.content, hError] at hReadable

theorem readable_iff_not_error (batchNum : Nat) :
    Readable batchNum (srv.content u batchNum) ↔ ¬ ∃ e, srv.readBatch u batchNum = .error e := by
  cases hRead : srv.readBatch u batchNum with
  | ok blocks => simpa using ((readBatch_ok_iff u srv batchNum blocks).mp hRead).1
  | error e =>
    constructor
    · intro hReadable
      have hOk := (readBatch_ok_iff u srv batchNum _).mpr ⟨hReadable, rfl⟩
      rw [hRead] at hOk
      cases hOk
    · intro hNone
      exact absurd ⟨e, rfl⟩ hNone

/- A missing bookmark is an error in every schedule. -/
theorem readsTheSame_of_missing (hOrder : start ≤ stop) (hLast : stop + 1 < 2 ^ 64)
    (hMissing : ∃ batchNum ∈ batchNumbers start stop, ∃ e, srv.getBookmark batchNum = .error e)
    (hSequential : ¬ Sequential u srv start stop) : ReadsTheSame u srv start stop := by
  intro returned hReturns
  cases hReturns with
  | endless hEndless => exact absurd hLast hEndless
  | noBookmark order e _ _ _ =>
    refine ⟨_, rfl, fun batches => ?_, fun _ => ⟨e, rfl⟩⟩
    rw [readBatches_ok_iff u srv hOrder]
    simp [hSequential]
  | read final _ hBookmarks _ _ =>
    rcases hMissing with ⟨batchNum, hMem, hError⟩
    exact absurd hError (bookmarkError_eq_none_iff.mp (hBookmarks batchNum hMem))

/- All batches read from their bookmarks as in one pass. -/
theorem readsTheSame_of_same (hOrder : start ≤ stop) (hLast : stop + 1 < 2 ^ 64)
    (hReadable : ∀ batchNum ∈ batchNumbers start stop, Readable batchNum (srv.content u batchNum))
    (hSequential : Sequential u srv start stop)
    (hSame : ∀ batchNum ∈ batchNumbers start stop, blocksOf batchNum
      (upToEnd batchNum (srv.content u batchNum).1) = blocksOf batchNum (behindStart batchNum
      (upToEnd stop (srv.content u start).1))) : ReadsTheSame u srv start stop := by
  have hMap := List.map_congr_left hSame
  intro returned hReturns
  cases hReturns with
  | endless hEndless => exact absurd hLast hEndless
  | noBookmark order e _ hPerm hFirst =>
    have hSome : e ∈ order.filterMap (bookmarkError srv) := List.mem_of_mem_head? hFirst
    rcases List.mem_filterMap.mp hSome with ⟨batchNum, hMem, hError⟩
    have hNone := bookmark_of_readable (hReadable batchNum (hPerm.mem_iff.mp hMem))
    rw [hNone] at hError
    cases hError
  | read final _ _ hRun hStuck =>
    refine ⟨_, outcome_of_readable hReadable hRun hStuck, fun batches => ?_, ?_⟩
    · rw [readBatches_ok_iff u srv hOrder, hMap]
      simp [hSequential]
    · rintro ⟨batchNum, hMem, hError⟩
      exact absurd hError ((readable_iff_not_error batchNum).mp (hReadable batchNum hMem))

/- The first missing bookmark in the order of the numbers. -/
theorem exists_returns_missing (hLast : stop + 1 < 2 ^ 64)
    (hMissing : ∃ batchNum ∈ batchNumbers start stop, ∃ e, srv.getBookmark batchNum = .error e) :
    ∃ e, Returns u srv start stop (some (.error (.error e))) := by
  rcases hMissing with ⟨batchNum, hMem, e, hError⟩
  have hSome : bookmarkError srv batchNum = some e := by simp [bookmarkError, hError]
  cases hErrors : (batchNumbers start stop).filterMap (bookmarkError srv) with
  | nil =>
    have hNone := List.filterMap_eq_nil_iff.mp hErrors batchNum hMem
    rw [hSome] at hNone
    cases hNone
  | cons first rest =>
    exact ⟨first, .noBookmark _ first hLast (List.Perm.refl _) (by simp [hErrors])⟩

/-
  If no bookmark is missing, the schedule that hands out all batches first shows that all of them
  can be read.
-/
theorem readable_of_readsTheSame (hLast : stop + 1 < 2 ^ 64)
    (hBookmarks : ∀ batchNum ∈ batchNumbers start stop, bookmarkError srv batchNum = none)
    (hReads : ReadsTheSame u srv start stop) :
    ∀ batchNum ∈ batchNumbers start stop, Readable batchNum (srv.content u batchNum) := by
  intro batchNum hMem
  rw [readable_iff_not_error]
  intro hError
  rcases Jobs.exists_unreported maxWorkers fatal (srv.readBatch u) (batchNumbers start stop)
    with ⟨final, hRun, hStuck, hFatal⟩
  rcases hReads _ (.read final hLast hBookmarks hRun hStuck) with ⟨result, hResult, _, hFails⟩
  rcases hFails ⟨batchNum, hMem, hError⟩ with ⟨message, rfl⟩
  rcases Jobs.outcome_of_stuck hStuck with ⟨outcome, hOutcome⟩
  rw [hOutcome, Option.map_some, Option.some.injEq] at hResult
  cases outcome with
  | ok results => cases hResult
  | error e =>
    cases hResult
    exact absurd (hFatal _ hOutcome) (by simp [fatal])

end

-- An Error Behind the Last Batch Handed Out

/- Decoders of starts and ends of batch 1 only. -/
def batchOne : Unmarshal where
  bookmark _ := .error "proto: cannot parse"
  gerUpdate _ := .error "proto: cannot parse"
  batchStart _ := .ok ⟨1, 0, 0, .regular⟩
  batchEnd _ := .ok ⟨0, 0, 1⟩
  l2Block _ := .error "proto: cannot parse"
  tx _ := .error "proto: cannot parse"
  l2BlockEnd _ := .error "proto: cannot parse"

def bookmarkOne (batchNum : Nat) : Except String Nat :=
  if batchNum = 1 then .ok 0
  else .error "bookmark not found"

def emptyBatch : StreamServer where
  entries := [.ok ⟨.batchStart, 0, []⟩, .ok ⟨.batchEnd, 1, []⟩]
  getBookmark := bookmarkOne

/- A batch whose block cannot be decoded. -/
def brokenBatch : StreamServer where
  entries := [.ok ⟨.batchStart, 0, []⟩, .ok ⟨.l2Block, 1, []⟩]
  getBookmark := bookmarkOne

end XLayerErigon.DataStream
