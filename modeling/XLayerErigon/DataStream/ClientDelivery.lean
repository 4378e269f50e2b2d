import XLayerErigon.DataStream.ReadParsedProto

/-
  How the client puts the entries of a stream on a channel.

  The client reads entry after entry and offers each to a channel of limited size that another
  party empties.  When the channel is full the same entry is offered in the next round.  Whether
  the announced total is reached is decided by the number of the entry, also when the entry did
  not get onto the channel.

  Main results:
    * `readParsedProto_delivers`
    * `KeptPhase.step`
    * `client_delivery_lossless`
-/

namespace XLayerErigon.DataStream

-- The Client

/- A message; a block is put with the fork of its batch. -/
structure Put where
  entry : ParsedEntry
  forkId : Nat

inductive Phase where
  | reading
  | stopping (retries : Nat)
  | finished (result : Except Failure Unit)

/-
  The variables of the loop, what is on the channel, and what the other party has taken from it.
  The marker of the end is `none`.
-/
structure Client where
  files : Files
  readNewProto : Bool
  entryNum : Nat
  parsedProto : Option ParsedEntry
  currentFork : Nat
  entryChan : List (Option Put)
  taken : List (Option Put)
  stopReadingToChannel : Bool
  phase : Phase

def entryChannelSize : Nat := 100000

/-
  The reader returned `ErrReachedEntryNumberLimit`: errors are compared by identity, so another
  error with the same text does not count.
-/
def limitReachedInBlock (u : Unmarshal) (limit : Nat) : Files → Bool
  | .ok innerFile :: rest =>
      decide (innerFile.entryType = .l2Tx) && (u.tx innerFile.data).isOk &&
        (decide (innerFile.entryNum = limit) || limitReachedInBlock u limit rest)
  | _ => false

def limitReached (u : Unmarshal) (limit : Nat) : Files → Bool
  | .ok file :: rest =>
      decide (file.entryType = .l2Block) &&
        (u.l2Block file.data).isOk && limitReachedInBlock u limit rest
  | _ => false

namespace Client

def start (files : Files) (currentFork : Nat) : Client where
  files := files
  readNewProto := true
  entryNum := 0
  parsedProto := none
  currentFork := currentFork
  entryChan := []
  taken := []
  stopReadingToChannel := false
  phase := .reading

def read (u : Unmarshal) (totalEntries : Nat) (c : Client) : Client :=
  let reading := readParsedProto u totalEntries c.files
  match reading.parsedEntry with
  | .error e =>
    if limitReached u totalEntries c.files then
      { c with files := reading.rest, phase := .stopping 0 }
    else
      { c with
        files := reading.rest
        phase := .finished (.error e) }
  | .ok parsedProto =>
    { c with
      files := reading.rest
      parsedProto := parsedProto
      entryNum := reading.entryNum
      readNewProto := false }

/- Offer a message, then look whether the end is reached. -/
def offer (totalEntries capacity : Nat) (c : Client) (put : Put) : Client :=
  let offered :=
    if c.entryChan.length < capacity then
      { c with
        entryChan := c.entryChan ++ [some put]
        readNewProto := true }
    else
      c
  if totalEntries ≤ offered.entryNum + 1 then
    { offered with phase := .stopping 0 }
  else
    offered

def handle (totalEntries capacity : Nat) (c : Client) : Client :=
  match c.parsedProto with
  | some (.bookmark _) => { c with readNewProto := true }
  | some (.batchStart batch) =>
    ({ c with currentFork := batch.forkId }).offer totalEntries capacity ⟨.batchStart batch, 0⟩
  | some (.gerUpdate update) =>
    c.offer totalEntries capacity ⟨.gerUpdate update, 0⟩
  | some (.batchEnd last) =>
    c.offer totalEntries capacity ⟨.batchEnd last, 0⟩
  | some (.l2Block block txs) =>
    c.offer totalEntries capacity ⟨.l2Block block txs, c.currentFork⟩
  | some (.l2BlockEnd _) | none =>
    { c with phase := .finished (.error (.error "unexpected entry type: %v")) }

/- What follows the reading, unless that ended the loop. -/
def proceed (totalEntries capacity : Nat) (c : Client) : Client :=
  match c.phase with
  | .reading => c.handle totalEntries capacity
  | _ => c

def round (u : Unmarshal) (totalEntries capacity : Nat) (c : Client) : Client :=
  if c.stopReadingToChannel then
    { c with phase := .finished (.ok ()) }
  else if c.readNewProto then
    (c.read u totalEntries).proceed totalEntries capacity
  else
    c.handle totalEntries capacity

/- One try to put the marker of the end. -/
def trySendStopSignal (capacity retries : Nat) (c : Client) : Client :=
  if c.entryChan.length < capacity then
    { c with
      entryChan := c.entryChan ++ [none]
      phase := .finished (.ok ()) }
  else if 5 < retries then
    { c with
      phase := .finished (.error (.error
        ("[Datastream client] failed to write final " ++ "entry to channel after 5 retries"))) }
  else
    { c with phase := .stopping (retries + 1) }

/-
  The other party takes a message or asks to stop, a read timeout or the context ends the loop, or
  a round is done.
-/
inductive Event where
  | take
  | stop
  | fail (e : Failure)
  | round

def step (u : Unmarshal) (totalEntries capacity : Nat) (c : Client) : Event → Option Client
  | .take =>
      match c.entryChan with
      | [] => none
      | message :: rest =>
          some { c with
            entryChan := rest
            taken := c.taken ++ [message] }
  | .stop => some { c with stopReadingToChannel := true }
  | .fail e =>
    match c.phase with
    | .reading =>
      some { c with phase := .finished (.error e) }
    | _ => none
  | .round =>
    match c.phase with
    | .reading => some (c.round u totalEntries capacity)
    | .stopping retries =>
      some (c.trySendStopSignal capacity retries)
    | .finished _ => none

/- Everything that was put on the channel, in order. -/
def sent (c : Client) : List (Option ParsedEntry) :=
  (c.taken ++ c.entryChan).map (Option.map Put.entry)

end Client

/- The runs whose rounds all meet a condition. -/
inductive ClientRun (u : Unmarshal)
    (totalEntries capacity : Nat) (condition : Client → Prop) (c : Client) : Client → Prop where
  | start : ClientRun u totalEntries capacity condition c c
  | step {before after : Client} (event : Client.Event) :
      ClientRun u totalEntries capacity condition c before →
      (event = .round → condition before) → before.step u totalEntries capacity event = some after →
      ClientRun u totalEntries capacity condition c after

-- What Is Asked of a Run

/- A stream: its entries are numbered one after the other. -/
def numbered (first : Nat) :
    List (EntryType × Bytes) → List FileEntry
| [] => []
| content :: contents =>
    ⟨content.1, first, content.2⟩ :: numbered (first + 1) contents

/- The iterator over a stream, which may break at its end. -/
def iterator (first : Nat) (contents : List (EntryType × Bytes)) (fault : Option String) : Files :=
  (numbered first contents).map .ok ++ fault.toList.map .error

/- An entry that is put as it is. -/
def IsSingle (u : Unmarshal) (file : FileEntry) : ParsedEntry → Prop
  | .batchStart batch =>
      file.entryType = .batchStart ∧ u.batchStart file.data = .ok batch
  | .batchEnd last =>
      file.entryType = .batchEnd ∧ u.batchEnd file.data = .ok last
  | .gerUpdate update =>
      file.entryType = .gerUpdate ∧ u.gerUpdate file.data = .ok update
  | _ => False

/-
  The parsed entries stand for all of the files but the bookmarks, each once and in order.  A
  block stands for its entry, its transactions and its end; a bookmark may be in the place of the
  end.
-/
inductive Delivers (u : Unmarshal) :
    List FileEntry → List ParsedEntry → Prop where
  | nil : Delivers u [] []
  | bookmark {file : FileEntry} {files : List FileEntry} {items : List ParsedEntry} :
      file.entryType = .bookmark → Delivers u files items → Delivers u (file :: files) items
  | single {file : FileEntry} {entry : ParsedEntry}
      {files : List FileEntry} {items : List ParsedEntry} :
      IsSingle u file entry → Delivers u files items → Delivers u (file :: files) (entry :: items)
  | block {file last : FileEntry} {inner : List FileEntry}
      {block : L2Block} {txs : List Transaction}
      {files : List FileEntry} {items : List ParsedEntry} :
      IsBlock u file block → List.Forall₂ (IsTx u) inner txs →
      IsBlockEnd u last block.number ∨ last.entryType = .bookmark → Delivers u files items →
      Delivers u (file :: (inner ++ last :: files)) (.l2Block block txs :: items)

/- All entries up to the total were put on the channel, and then the marker of the end. -/
def Lossless (u : Unmarshal) (totalEntries first : Nat) (contents : List (EntryType × Bytes))
    (c : Client) : Prop :=
  ∃ delivered rest items,
    numbered first contents = delivered ++ rest ∧ totalEntries ≤ first + delivered.length ∧
    Delivers u delivered items ∧ c.sent = items.map some ++ [none]

/- A block at the front is not cut off by the total, and no end of a batch is taken for its end. -/
def BlockWhole (u : Unmarshal) (totalEntries : Nat) (files : Files) : Prop :=
  ∀ file block inner txs rest,
    files = .ok file :: (List.map .ok inner ++ rest) → IsBlock u file block →
    List.Forall₂ (IsTx u) inner txs → (∀ innerFile ∈ inner, innerFile.entryNum ≠ totalEntries) ∧
    ∀ last later, rest = .ok last :: later → last.entryType ≠ .batchEnd

/-
  The condition on a round: the block it reads is whole, and there is room on the channel if what
  it reads reaches the total.
-/
def RoomAtEnd (u : Unmarshal) (totalEntries capacity : Nat) (c : Client) : Prop :=
  c.readNewProto = true →
    BlockWhole u totalEntries c.files ∧
    (totalEntries ≤ (readParsedProto u totalEntries c.files).entryNum + 1 →
      c.entryChan.length < capacity)

-- What the Reader Takes from the Stream

section

variable {u : Unmarshal}

variable {limit : Nat} {entry : ParsedEntry}

theorem Delivers.append {files others : List FileEntry} {items more : List ParsedEntry}
    (hFiles : Delivers u files items) (hOthers : Delivers u others more) :
    Delivers u (files ++ others) (items ++ more) := by
  induction hFiles with
  | nil => exact hOthers
  | bookmark hType _ ih => exact .bookmark hType ih
  | single hSingle _ ih => exact .single hSingle ih
  | block hBlock hTxs hLast _ ih => simpa using Delivers.block hBlock hTxs hLast ih

theorem entryNum_numbered {first : Nat} {contents : List (EntryType × Bytes)}
    {before after : List FileEntry} {file : FileEntry}
    (hSplit : numbered first contents = before ++ file :: after) :
    file.entryNum = first + before.length := by
  induction before generalizing first contents with
  | nil =>
    cases contents with
    | nil => simp [numbered] at hSplit
    | cons content contents =>
      rcases List.cons.inj hSplit with ⟨hFile, _⟩
      simp [← hFile]
  | cons skipped before ih =>
    cases contents with
    | nil => simp [numbered] at hSplit
    | cons content contents =>
      rcases List.cons.inj hSplit with ⟨_, hRest⟩
      have hNext := ih hRest
      simp only [List.length_cons]
      omega

/- An entry of an iterator that may break is one of its entries. -/
theorem exists_of_iterator {left inner : List FileEntry} {fault : Option String} {last : FileEntry}
    {rest : Files}
    (hFiles : left.map .ok ++ fault.toList.map .error = inner.map .ok ++ .ok last :: rest) :
    ∃ later, left = inner ++ last :: later ∧ rest = later.map .ok ++ fault.toList.map .error := by
  induction inner generalizing left with
  | nil =>
    cases left with
    | nil => cases fault <;> simp at hFiles
    | cons file left =>
      simp only [List.map_cons, List.map_nil, List.nil_append, List.cons_append,
        List.cons.injEq, Except.ok.injEq] at hFiles
      exact ⟨left, by rw [hFiles.1]; rfl, hFiles.2.symm⟩
  | cons innerFile inner ih =>
    cases left with
    | nil => cases fault <;> simp at hFiles
    | cons file left =>
      simp only [List.map_cons, List.cons_append, List.cons.injEq, Except.ok.injEq] at hFiles
      rcases ih hFiles.2 with ⟨later, rfl, hRest⟩
      exact ⟨later, by rw [hFiles.1]; rfl, hRest⟩

/- The transactions of a block and what is read as its end. -/
theorem readBlock_takes {file : FileEntry} {block : L2Block} {left : List FileEntry}
    {fault : Option String} {entryNum : Nat} {read : Reading}
    (hRead : readBlock u limit file block entryNum [] (left.map .ok ++ fault.toList.map .error) =
      read) (hOk : read.parsedEntry = .ok (some entry)) :
    ∃ inner txs last rest, left = inner ++ last :: rest ∧ List.Forall₂ (IsTx u) inner txs ∧
      Ends u file block last ∧ entry = .l2Block block txs ∧
      read.rest = rest.map .ok ++ fault.toList.map .error ∧ read.entryNum = last.entryNum := by
  subst hRead
  rcases exists_transactions u limit (left.map .ok ++ fault.toList.map .error) with
    ⟨inner, txs, later, hFiles, hTxs, hLimit, hLater⟩
  rcases readBlock_transactions file block hTxs hLimit entryNum [] later with ⟨reached, hReached⟩
  rw [hFiles, hReached, List.nil_append] at hOk ⊢
  rcases readBlock_stop file block hLater reached txs with
    rfl | ⟨message, hFails⟩ | ⟨last, rest, rfl, hLast, hRead⟩
  · simp [readBlock] at hOk
  · rw [hFails] at hOk
    cases hOk
  · rcases exists_of_iterator hFiles with ⟨rest, hLeft, rfl⟩
    rw [hRead] at hOk ⊢
    simp only [Except.ok.injEq, Option.some.injEq] at hOk
    exact ⟨inner, txs, last, rest, hLeft, hTxs, hLast, hOk.symm, rfl, rfl⟩

/- What of an entry goes onto the channel. -/
def puts : ParsedEntry → List ParsedEntry
  | .bookmark _ => []
  | entry => [entry]

/- An entry of a kind of its own is read alone. -/
theorem single_ok {α : Type} {parsed : α → ParsedEntry} {decoded : Except String α}
    (hOk : single parsed decoded = .ok (some entry)) : ∃ a, decoded = .ok a ∧ entry = parsed a := by
  cases decoded with
  | error e => simp [single] at hOk
  | ok a =>
    simp only [single, Except.ok.injEq, Option.some.injEq] at hOk
    exact ⟨a, rfl, hOk.symm⟩

/-
  What one call of the reader takes from the stream, and that the entry it returns stands for
  that.
-/
theorem readParsedProto_delivers {left : List FileEntry} {fault : Option String}
    (hWhole : BlockWhole u limit (left.map .ok ++ fault.toList.map .error)) {read : Reading}
    (hRead : readParsedProto u limit (left.map .ok ++ fault.toList.map .error) = read)
    (hOk : read.parsedEntry = .ok (some entry)) :
    ∃ before last rest, left = before ++ last :: rest ∧
      read.rest = rest.map .ok ++ fault.toList.map .error ∧ read.entryNum = last.entryNum ∧
      ((∃ number, entry = .l2BlockEnd number) ∨ Delivers u (before ++ [last]) (puts entry)) := by
  subst hRead
  generalize hFiles : left.map Except.ok ++ fault.toList.map Except.error = files at hWhole hOk ⊢
  -- one entry that is read alone
  have hAlone : ∀ file rest, files = .ok file :: rest →
      ((∃ number, entry = .l2BlockEnd number) ∨ Delivers u [file] (puts entry)) →
      ∃ before last later, left = before ++ last :: later ∧
        rest = later.map .ok ++ fault.toList.map .error ∧ file.entryNum = last.entryNum ∧
        ((∃ number, entry = .l2BlockEnd number) ∨ Delivers u (before ++ [last]) (puts entry)) := by
    rintro file rest rfl hEntry
    rcases @exists_of_iterator left [] fault file rest hFiles with ⟨later, hLeft, hRest⟩
    exact ⟨[], file, later, hLeft, hRest, rfl, hEntry⟩
  revert hOk
  fun_cases readParsedProto u limit files with
  | case3 file rest stop hType =>
    intro hOk
    rcases single_ok hOk with ⟨mark, _, rfl⟩
    exact hAlone file rest rfl (Or.inr (.bookmark hType .nil))
  | case4 file rest stop hType =>
    intro hOk
    rcases single_ok hOk with ⟨update, hData, rfl⟩
    exact hAlone file rest rfl (Or.inr (.single ⟨hType, hData⟩ .nil))
  | case5 file rest stop hType =>
    intro hOk
    rcases single_ok hOk with ⟨batch, hData, rfl⟩
    exact hAlone file rest rfl (Or.inr (.single ⟨hType, hData⟩ .nil))
  | case6 file rest stop hType =>
    intro hOk
    rcases single_ok hOk with ⟨last, hData, rfl⟩
    exact hAlone file rest rfl (Or.inr (.single ⟨hType, hData⟩ .nil))
  | case8 file files hType block hBlock =>
    rcases @exists_of_iterator left [] fault file files hFiles with ⟨left, rfl, rfl⟩
    intro hOk
    rcases readBlock_takes rfl hOk with
      ⟨inner, txs, last, rest, rfl, hTxs, hLast, rfl, hRest, hNum⟩
    have hNoBatchEnd : last.entryType ≠ .batchEnd :=
      (hWhole file block inner txs (.ok last :: (rest.map .ok ++ fault.toList.map .error))
        (by simp) ⟨hType, hBlock⟩ hTxs).2 last _ rfl
    have hEnds : IsBlockEnd u last block.number ∨ last.entryType = .bookmark := by
      rcases hLast with hEnd | hMark | hBatch
      · exact Or.inl hEnd
      · exact Or.inr hMark.1
      · exact absurd hBatch.1 hNoBatchEnd
    exact ⟨file :: inner, last, rest, rfl, hRest, hNum,
      Or.inr (.block ⟨hType, hBlock⟩ hTxs hEnds .nil)⟩
  | case10 file rest stop hType number hEnd =>
    intro hOk
    exact hAlone file rest rfl (Or.inl ⟨number, (Option.some.inj (Except.ok.inj hOk)).symm⟩)
  | _ =>
    intro hOk
    cases hOk

theorem exists_of_isOk {α : Type} {decoded : Except String α} (hOk : decoded.isOk = true) :
    ∃ a, decoded = .ok a := by
  cases decoded with
  | error e => cases hOk
  | ok a => exact ⟨a, rfl⟩

theorem exists_of_limitReachedInBlock {files : Files}
    (hReached : limitReachedInBlock u limit files = true) :
    ∃ inner txs rest, files = List.map .ok inner ++ rest ∧
      List.Forall₂ (IsTx u) inner txs ∧ ∃ innerFile ∈ inner, innerFile.entryNum = limit := by
  induction files with
  | nil => simp [limitReachedInBlock] at hReached
  | cons next files ih =>
    cases next with
    | error e => simp [limitReachedInBlock] at hReached
    | ok innerFile =>
      simp only [limitReachedInBlock, Bool.and_eq_true,
        Bool.or_eq_true, decide_eq_true_eq] at hReached
      rcases hReached with ⟨⟨hType, hData⟩, hHere | hLater⟩
      all_goals rcases exists_of_isOk hData with ⟨tx, hTx⟩
      · exact ⟨[innerFile], [tx], files, rfl, .cons ⟨hType, hTx⟩ .nil, innerFile, by simp, hHere⟩
      · rcases ih hLater with ⟨inner, txs, rest, rfl, hTxs, atLimit, hMem, hNum⟩
        exact ⟨innerFile :: inner, tx :: txs, rest, rfl, .cons ⟨hType, hTx⟩ hTxs, atLimit,
          by simp [hMem], hNum⟩

/- A whole block does not reach the limit inside. -/
theorem limitReached_of_whole {files : Files} (hWhole : BlockWhole u limit files) :
    limitReached u limit files = false := by
  by_contra hReached
  rw [Bool.not_eq_false] at hReached
  cases files with
  | nil => simp [limitReached] at hReached
  | cons next files =>
    cases next with
    | error e => simp [limitReached] at hReached
    | ok file =>
      simp only [limitReached, Bool.and_eq_true, decide_eq_true_eq] at hReached
      rcases hReached with ⟨⟨hType, hData⟩, hInside⟩
      rcases exists_of_limitReachedInBlock hInside
        with ⟨inner, txs, rest, rfl, hTxs, atLimit, hMem, hNum⟩
      rcases exists_of_isOk hData with ⟨block, hBlock⟩
      exact (hWhole file block inner txs rest rfl ⟨hType, hBlock⟩ hTxs).1 atLimit hMem hNum

end

-- What Every Event Keeps

section

variable (u : Unmarshal) (totalEntries first : Nat) (contents : List (EntryType × Bytes))
  (fault : Option String)

/- The iterator has what is not delivered. -/
def FilesLeft (delivered : List FileEntry) (files : Files) : Prop :=
  ∃ left, numbered first contents = delivered ++ left ∧
    files = left.map .ok ++ fault.toList.map .error

/- In the loop: nothing is pending, or the last entry is. -/
def KeptReading (c : Client) : Prop :=
  ∃ delivered items, FilesLeft first contents fault delivered c.files ∧ Delivers u delivered items ∧
    ((c.readNewProto = true ∧ c.sent = items.map some) ∨
      (c.readNewProto = false ∧
        ¬ totalEntries ≤ c.entryNum + 1 ∧
        ∃ before entry, c.parsedProto = some entry ∧
          puts entry = [entry] ∧ items = before ++ [entry] ∧ c.sent = before.map some))

/- Behind the loop: all up to the total is put. -/
def KeptStopping (c : Client) : Prop :=
  ∃ delivered rest items, numbered first contents = delivered ++ rest ∧
    totalEntries ≤ first + delivered.length ∧ Delivers u delivered items ∧ c.sent = items.map some

/- What holds in every state, unless asked to stop. -/
def KeptPhase (c : Client) : Prop := c.stopReadingToChannel = false → match c.phase with
    | .reading =>
      KeptReading u totalEntries first contents fault c
    | .stopping _ =>
      KeptStopping u totalEntries first contents c
    | .finished result =>
      result = .ok () → Lossless u totalEntries first contents c

variable {u totalEntries first contents fault}

variable {delivered : List FileEntry} {capacity : Nat} {c : Client}

/- What ends in an error promises nothing. -/
theorem kept_of_failed {e : Failure} (hPhase : c.phase = .finished (.error e)) :
    KeptPhase u totalEntries first contents fault c := by
  intro _
  rw [hPhase]
  intro hOk
  cases hOk

section Kept

variable {before : List ParsedEntry} (hPhase : c.phase = .reading)
  (hLeft : FilesLeft first contents fault delivered c.files) (hSent : c.sent = before.map some)

include hPhase hLeft hSent

section Pending

variable (hNew : c.readNewProto = false)
  (hEnd : totalEntries ≤ c.entryNum + 1 → totalEntries ≤ first + delivered.length ∧
    c.entryChan.length < capacity)

include hNew hEnd

/- An entry is offered, and the end is looked for. -/
theorem kept_offer {put : Put} (hParsed : c.parsedProto = some put.entry)
    (hPuts : puts put.entry = [put.entry])
    (hDelivers : Delivers u delivered (before ++ [put.entry])) :
    KeptPhase u totalEntries first contents fault (c.offer totalEntries capacity put) := by
  intro _
  unfold Client.offer
  by_cases hRoom : c.entryChan.length < capacity
  · have hSentPut : ({ c with
      entryChan := c.entryChan ++ [some put]
      readNewProto := true } : Client).sent = (before ++ [put.entry]).map some := by
      have hMessages :
          (c.taken ++ c.entryChan).map (Option.map Put.entry) = before.map some := hSent
      simp only [Client.sent, ← List.append_assoc, List.map_append, hMessages]
      simp [← hMessages]
    by_cases hTotal : totalEntries ≤ c.entryNum + 1
    · simp only [if_pos hRoom, if_pos hTotal]
      rcases hLeft with ⟨left, hSplit, _⟩
      exact ⟨delivered, left, _, hSplit, (hEnd hTotal).1, hDelivers, hSentPut⟩
    · simp only [if_pos hRoom, if_neg hTotal, hPhase]
      exact ⟨delivered, _, hLeft, hDelivers, Or.inl ⟨rfl, hSentPut⟩⟩
  · by_cases hTotal : totalEntries ≤ c.entryNum + 1
    · exact absurd (hEnd hTotal).2 hRoom
    · simp only [if_neg hRoom, if_neg hTotal, hPhase]
      exact ⟨delivered, _, hLeft, hDelivers,
        Or.inr ⟨hNew, hTotal, before, put.entry, hParsed, hPuts, rfl, hSent⟩⟩

theorem kept_handle {entry : ParsedEntry} (hParsed : c.parsedProto = some entry)
    (hDelivers : Delivers u delivered (before ++ puts entry)) :
    KeptPhase u totalEntries first contents fault (c.handle totalEntries capacity) := by
  have hOffer : ∀ forkId, puts entry = [entry] →
      c.handle totalEntries capacity = c.offer totalEntries capacity ⟨entry, forkId⟩ →
      KeptPhase u totalEntries first contents fault (c.handle totalEntries capacity) := by
    intro forkId hPuts hHandle
    rw [hHandle]
    rw [hPuts] at hDelivers
    exact kept_offer hPhase hLeft hSent hNew hEnd hParsed hPuts hDelivers
  cases entry with
  | bookmark mark =>
    have hHandle : c.handle totalEntries capacity = { c with readNewProto := true } := by
      simp [Client.handle, hParsed]
    intro _
    rw [hHandle]
    simp only [hPhase]
    rw [puts, List.append_nil] at hDelivers
    exact ⟨delivered, before, hLeft, hDelivers, Or.inl ⟨rfl, hSent⟩⟩
  | batchStart batch =>
    have hHandle : c.handle totalEntries capacity =
        ({ c with currentFork := batch.forkId }).offer
          totalEntries capacity ⟨.batchStart batch, 0⟩ := by
      simp [Client.handle, hParsed]
    rw [hHandle]
    exact kept_offer (c := { c with currentFork := batch.forkId })
      hPhase hLeft hSent hNew hEnd hParsed rfl hDelivers
  | gerUpdate update => exact hOffer 0 rfl (by simp [Client.handle, hParsed])
  | batchEnd last => exact hOffer 0 rfl (by simp [Client.handle, hParsed])
  | l2Block block txs => exact hOffer c.currentFork rfl (by simp [Client.handle, hParsed])
  | l2BlockEnd number =>
    have hFailed : (c.handle totalEntries capacity).phase =
          .finished (.error (.error "unexpected entry type: %v")) := by
      simp [Client.handle, hParsed]
    exact kept_of_failed hFailed

end Pending

/- A round that reads a new entry. -/
theorem kept_read (hDelivers : Delivers u delivered before)
    (hWhole : BlockWhole u totalEntries c.files)
    (hRoom : totalEntries ≤ (readParsedProto u totalEntries c.files).entryNum + 1 →
      c.entryChan.length < capacity) :
    KeptPhase u totalEntries first contents fault
      ((c.read u totalEntries).proceed totalEntries capacity) := by
  cases hReading : (readParsedProto u totalEntries c.files).parsedEntry with
  | error e =>
    have hRead : c.read u totalEntries =
        { c with
          files := (readParsedProto u totalEntries c.files).rest
          phase := .finished (.error e) } := by
      simp [Client.read, hReading, limitReached_of_whole hWhole]
    rw [hRead]
    exact kept_of_failed rfl
  | ok parsed =>
    have hRead : (c.read u totalEntries).proceed
        totalEntries capacity =
          ({ c with
            files := (readParsedProto u totalEntries c.files).rest
            parsedProto := parsed
            entryNum := (readParsedProto u totalEntries c.files).entryNum
            readNewProto := false } : Client).handle totalEntries capacity := by
      simp [Client.read, Client.proceed, hReading, hPhase]
    rw [hRead]
    cases parsed with
    | none => exact kept_of_failed rfl
    | some entry =>
      rcases hLeft with ⟨left, hSplit, hFiles⟩
      rw [hFiles] at hWhole hReading
      rcases readParsedProto_delivers hWhole rfl hReading
        with ⟨before, last, rest, hTaken, hRest, hNum, hEntry⟩
      rw [← hFiles] at hRest hNum
      rcases hEntry with ⟨number, rfl⟩ | hEntry
      · exact kept_of_failed rfl
      · have hMore : numbered first contents = (delivered ++ before) ++ last :: rest := by
          simp [hSplit, hTaken]
        refine kept_handle (c := { c with
            files := (readParsedProto u totalEntries c.files).rest
            parsedProto := some entry
            entryNum := (readParsedProto u totalEntries c.files).entryNum
            readNewProto := false })
          hPhase ⟨rest, ?_, hRest⟩ hSent rfl ?_ rfl (hDelivers.append hEntry)
        · simp [hMore]
        · intro hTotal
          refine ⟨?_, hRoom hTotal⟩
          have hLast := entryNum_numbered hMore
          simp only [hNum, List.length_append, List.length_singleton] at hTotal hLast ⊢
          omega

end Kept

section

variable (hKept : KeptPhase u totalEntries first contents fault c)

include hKept

theorem KeptPhase.round
    (hPhase : c.phase = .reading) (hCondition : RoomAtEnd u totalEntries capacity c) :
    KeptPhase u totalEntries first contents fault (c.round u totalEntries capacity) := by
  unfold Client.round
  by_cases hStop : c.stopReadingToChannel = true
  · rw [if_pos hStop]
    intro hFlag
    exact absurd (hFlag.symm.trans hStop) (by simp)
  · rw [if_neg hStop]
    have hReading := hKept (Bool.not_eq_true _ ▸ hStop)
    rw [hPhase] at hReading
    rcases hReading with ⟨delivered, items, hLeft, hDelivers,
      ⟨hNew, hSent⟩ | ⟨hNew, hTotal, before, entry, hParsed, hPuts, hItems, hSent⟩⟩
    · rw [if_pos hNew]
      rcases hCondition hNew with ⟨hWhole, hRoom⟩
      exact kept_read hPhase hLeft hSent hDelivers hWhole hRoom
    · rw [if_neg (by simp [hNew])]
      have hPending : Delivers u delivered (before ++ puts entry) := by
        rw [hPuts, ← hItems]
        exact hDelivers
      exact kept_handle hPhase hLeft hSent hNew
        (fun hReached => absurd hReached hTotal) hParsed hPending

/- The marker of the end comes behind everything else. -/
theorem KeptPhase.trySendStopSignal {capacity retries : Nat}
    (hPhase : c.phase = .stopping retries) :
    KeptPhase u totalEntries first contents fault (c.trySendStopSignal capacity retries) := by
  unfold Client.trySendStopSignal
  split
  · intro hFlag
    have hStopping := hKept hFlag
    rw [hPhase] at hStopping
    intro _
    rcases hStopping with ⟨delivered, rest, items, hSplit, hTotal, hDelivers, hSent⟩
    refine ⟨delivered, rest, items, hSplit, hTotal, hDelivers, ?_⟩
    have hMessages : (c.taken ++ c.entryChan).map (Option.map Put.entry) = items.map some := hSent
    simp only [Client.sent, ← List.append_assoc, List.map_append, ← hMessages]
    simp
  · split
    · exact kept_of_failed rfl
    · intro hFlag
      have hStopping := hKept hFlag
      rw [hPhase] at hStopping
      exact hStopping

/- Only the loop's variables and what was sent matter. -/
theorem KeptPhase.take
    {message : Option Put} {rest : List (Option Put)} (hChan : c.entryChan = message :: rest) :
    KeptPhase u totalEntries first contents fault
      { c with
        entryChan := rest
        taken := c.taken ++ [message] } := by
  have hSent : ({ c with
    entryChan := rest
    taken := c.taken ++ [message] } : Client).sent = c.sent := by
    simp [Client.sent, hChan]
  unfold KeptPhase KeptReading KeptStopping Lossless at hKept ⊢
  rw [hSent]
  exact hKept

theorem KeptPhase.step {next : Client}
    (event : Client.Event) (hCondition : event = .round → RoomAtEnd u totalEntries capacity c)
    (hStep : c.step u totalEntries capacity event = some next) :
    KeptPhase u totalEntries first contents fault next := by
  revert hStep
  fun_cases Client.step u totalEntries capacity c event with
  | case2 message rest hChan =>
    rintro ⟨⟩
    exact hKept.take hChan
  | case3 =>
    rintro ⟨⟩ hFlag
    cases hFlag
  | case4 e hPhase =>
    rintro ⟨⟩
    exact kept_of_failed rfl
  | case6 hPhase =>
    rintro ⟨⟩
    exact hKept.round hPhase (hCondition rfl)
  | case7 retries hPhase =>
    rintro ⟨⟩
    exact hKept.trySendStopSignal hPhase
  | _ => rintro ⟨⟩

end

theorem KeptPhase.start (currentFork : Nat) : KeptPhase u totalEntries first contents fault
      (Client.start (iterator first contents fault) currentFork) := by
  intro _
  exact ⟨[], [], ⟨numbered first contents, rfl, rfl⟩, .nil, Or.inl ⟨rfl, rfl⟩⟩

theorem kept_of_clientRun {capacity currentFork : Nat}
    (hRun : ClientRun u totalEntries capacity (RoomAtEnd u totalEntries capacity)
      (Client.start (iterator first contents fault)
      currentFork) c) : KeptPhase u totalEntries first contents fault c := by
  induction hRun with
  | start => exact KeptPhase.start currentFork
  | step event _ hCondition hStep ih => exact ih.step event hCondition hStep

end

-- The Last Entry and a Full Channel

/- Decoders that read starts of batches only. -/
def batchStarts : Unmarshal where
  bookmark _ := .error "proto: cannot parse"
  gerUpdate _ := .error "proto: cannot parse"
  batchStart _ := .ok ⟨0, 0, 0, .regular⟩
  batchEnd _ := .error "proto: cannot parse"
  l2Block _ := .error "proto: cannot parse"
  tx _ := .error "proto: cannot parse"
  l2BlockEnd _ := .error "proto: cannot parse"

def batchStartPut : Put := ⟨.batchStart ⟨0, 0, 0, .regular⟩, 0⟩

def manyStarts (n : Nat) : List (EntryType × Bytes) := List.replicate n (.batchStart, [])

/- The client after `n` entries, with `k` to come. -/
structure Filled (n k : Nat) (c : Client) : Prop where
  files : c.files = iterator n (manyStarts k) none
  new : c.readNewProto = true
  chan : c.entryChan = List.replicate n (some batchStartPut)
  taken : c.taken = []
  flag : c.stopReadingToChannel = false
  phase : c.phase = .reading

/- The next entry, read and offered. -/
theorem round_filled {totalEntries capacity n k : Nat} {c : Client} (hFilled : Filled n (k + 1) c) :
    c.round batchStarts totalEntries capacity =
      ({ c with
        files := iterator (n + 1) (manyStarts k) none
        parsedProto := some batchStartPut.entry
        entryNum := n
        readNewProto := false
        currentFork := 0 } : Client).offer totalEntries capacity batchStartPut := by
  have hFiles : c.files = .ok ⟨.batchStart, n, []⟩ :: iterator (n + 1) (manyStarts k) none := by
    rw [hFilled.files]
    rfl
  simp [Client.round, Client.read, Client.proceed,
    Client.handle, hFilled.flag, hFilled.new, hFilled.phase,
    hFiles, readParsedProto, single, batchStarts, batchStartPut]

/- As long as there is room the channel is filled. -/
theorem exists_filled (capacity : Nat) (n : Nat) (hRoom : n ≤ capacity) :
    ∃ c, ClientRun batchStarts (capacity + 1) capacity (fun _ => True)
        (Client.start (iterator 0 (manyStarts (capacity + 1)) none) 0) c ∧
      Filled n (capacity - n + 1) c := by
  induction n with
  | zero => exact ⟨_, .start, rfl, rfl, rfl, rfl, rfl, rfl⟩
  | succ n ih =>
    rcases ih (by omega) with ⟨c, hRun, hFilled⟩
    have hLess : n < capacity := by omega
    have hLeft : capacity - n + 1 = (capacity - (n + 1) + 1) + 1 := by omega
    rw [hLeft] at hFilled
    have hRound := @round_filled (capacity + 1) capacity _ _ _ hFilled
    have hNotYet : ¬ capacity + 1 ≤ n + 1 := by omega
    simp only [Client.offer, hFilled.chan, List.length_replicate, if_pos hLess, if_neg hNotYet]
      at hRound
    refine ⟨c.round batchStarts (capacity + 1) capacity,
      .step .round hRun (fun _ => trivial) (by simp [Client.step, hFilled.phase]), ?_⟩
    rw [hRound]
    exact ⟨rfl, rfl, by simp [List.replicate_succ'], hFilled.taken, hFilled.flag, hFilled.phase⟩

/- Starts of batches are delivered one for one. -/
theorem length_of_delivers {u : Unmarshal} {files : List FileEntry} {items : List ParsedEntry}
    (hDelivers : Delivers u files items) (hStarts : ∀ file ∈ files, file.entryType = .batchStart) :
    items.length = files.length := by
  induction hDelivers with
  | nil => rfl
  | bookmark hType _ _ =>
    have hStart := hStarts _ List.mem_cons_self
    exact absurd (hType.symm.trans hStart) (by simp)
  | single _ _ ih => simp [ih (fun file hMem => hStarts file (by simp [hMem]))]
  | block hBlock _ _ _ _ =>
    have hStart := hStarts _ List.mem_cons_self
    exact absurd (hBlock.1.symm.trans hStart) (by simp)

theorem entryType_manyStarts (first n : Nat) {file : FileEntry}
    (hMem : file ∈ numbered first (manyStarts n)) : file.entryType = .batchStart := by
  induction n generalizing first with
  | zero => simp [manyStarts, numbered] at hMem
  | succ n ih =>
    rcases List.mem_cons.mp hMem with rfl | hMem
    · rfl
    · exact ih (first + 1) hMem

/- With a full channel the last entry is read, not put, and the loop ends. -/
theorem exists_dropped (capacity : Nat) :
    ∃ c, ClientRun batchStarts (capacity + 1) capacity (fun _ => True)
        (Client.start (iterator 0 (manyStarts (capacity + 1)) none) 0) c ∧
      c.phase = .stopping 0 ∧ c.entryChan = List.replicate capacity (some batchStartPut) ∧
      c.taken = [] ∧ c.stopReadingToChannel = false := by
  rcases exists_filled capacity capacity (Nat.le_refl _) with ⟨c, hRun, hFilled⟩
  rw [Nat.sub_self] at hFilled
  have hRound := @round_filled (capacity + 1) capacity _ _ _ hFilled
  simp only [Client.offer, hFilled.chan, List.length_replicate, if_neg (Nat.lt_irrefl capacity),
    Nat.le_refl, if_true] at hRound
  refine ⟨c.round batchStarts (capacity + 1) capacity,
    .step .round hRun (fun _ => trivial) (by simp [Client.step, hFilled.phase]), ?_⟩
  rw [hRound]
  exact ⟨rfl, rfl, hFilled.taken, hFilled.flag⟩

/- One message is taken, and the marker fits. -/
theorem last_entry_lost (rest : Nat) :
    ∃ c, ClientRun batchStarts (rest + 2) (rest + 1) (fun _ => True)
        (Client.start (iterator 0 (manyStarts (rest + 2)) none) 0) c ∧
      c.phase = .finished (.ok ()) ∧ c.stopReadingToChannel = false ∧
      ¬ Lossless batchStarts (rest + 2) 0 (manyStarts (rest + 2)) c := by
  rcases exists_dropped (rest + 1) with ⟨c, hRun, hPhase, hChan, hTaken, hFlag⟩
  have hTake : c.step batchStarts (rest + 2) (rest + 1)
      .take = some { c with
        entryChan := List.replicate rest (some batchStartPut)
        taken := [some batchStartPut] } := by
    simp [Client.step, hChan, hTaken, List.replicate_succ]
  have hMarker : ({ c with
    entryChan := List.replicate rest (some batchStartPut)
    taken := [some batchStartPut] } : Client).step batchStarts (rest + 2) (rest + 1) .round =
    some { c with
      entryChan := List.replicate rest (some batchStartPut) ++ [none]
      taken := [some batchStartPut]
      phase := .finished (.ok ()) } := by
    simp [Client.step, hPhase, Client.trySendStopSignal]
  refine ⟨_, .step .round (.step .take hRun (by simp) hTake)
    (fun _ => trivial) hMarker, rfl, hFlag, ?_⟩
  rintro ⟨delivered, later, items, hSplit, hTotal, hDelivers, hSent⟩
  have hItems : items.length = rest + 1 := by
    have hLength := congrArg List.length hSent
    simp only [Client.sent, List.map_append, List.length_append,
      List.length_map, List.length_replicate, List.length_singleton] at hLength
    omega
  have hStarts : ∀ file ∈ delivered, file.entryType = .batchStart := by
    intro file hMem
    apply entryType_manyStarts 0 (rest + 2)
    rw [hSplit]
    exact List.mem_append_left later hMem
  have hLength := length_of_delivers hDelivers hStarts
  omega

end XLayerErigon.DataStream
