import EBTree.Sharded.Engine

/-!
# Transactions

`TransactionState` (`transaction_state.cc`): what a session keeps of its transaction, and the calls
the executor makes on it. A hash table is walked in the order of its keys; the order decides only
which of several conflicts is found first, and they are reported alike.
-/

set_option autoImplicit false

namespace EBTree.Sql

open Lib Engine Sharded

/-- `Catalog::IsIndexEncodedKey`: a table, a colon, an `i`, digits and a colon. -/
def isIndexEncodedKey (encoded : Key) : Bool :=
  let isDigit (c : UInt8) : Bool := 48 ≤ c && c ≤ 57
  match encoded.dropWhile (· ≠ 58) with
  | _ :: i :: rest =>
    decide (i = 105) && rest.head?.any isDigit && (rest.dropWhile isDigit).head? == some 58
  | _ => false

structure TxnJournalEntry where
  engineKey : Key
  hadValue : Bool
  oldValue : Value
  deriving DecidableEq, Repr

structure RangeTicket where
  snapshotLsn : Nat
  keyLo : Key
  keyHi : Key
  deriving DecidableEq, Repr

structure TransactionState where
  active : Bool
  txnId : UInt32
  snapshotToken : SnapshotToken
  readSet : SortedMap Key Nat
  writeSet : SortedMap Key Nat
  rangeTickets : List RangeTicket
  journal : List TxnJournalEntry
  savepoints : List Nat
  savepointNames : List String

namespace TransactionState

/-- A session outside every transaction. -/
def idle : TransactionState where
  active := false
  txnId := 0
  snapshotToken := ⟨[]⟩
  readSet := SortedMap.empty
  writeSet := SortedMap.empty
  rangeTickets := []
  journal := []
  savepoints := []
  savepointNames := []

/-! ## Reading -/

/-- `SampleReadVersion`. -/
def sampleReadVersion (t : TransactionState) (e : Engine) (encodedKey : Key) :
    Option (Engine × Except Status Nat) :=
  e.resolveLsnAtSnapshot encodedKey t.snapshotToken

/-- An LSN, `0` in place of a failure. -/
def lsnOrZero (r : Except Status Nat) : Nat :=
  match r with
  | .ok lsn => lsn
  | .error _ => 0

def readKey (t : TransactionState) (e : Engine) (encodedKey : Key) :
    Option (TransactionState × Engine × Except Status Version) :=
  if !t.active then (e.get encodedKey).map fun x => (t, x)
  else
    match t.sampleReadVersion e encodedKey with
    | none => none
    | some (e, .ok visibleLsn) =>
      (e.getAtSnapshot encodedKey t.snapshotToken t.txnId).map fun x =>
        ({ t with readSet := t.readSet.insert encodedKey visibleLsn }, x)
    | some (e, .error sample) =>
      if sample.code ≠ .kNotFound then some (t, e, .error sample)
      else
        match e.resolveCurrentCommittedLsn encodedKey with
        | none => none
        | some (e, committed) =>
          (e.getAtSnapshot encodedKey t.snapshotToken t.txnId).map fun x =>
            ({ t with readSet := t.readSet.insert encodedKey (lsnOrZero committed) }, x)

/-- The versions read and about to be overwritten. -/
def ticket (t : TransactionState) (encodedKey : Key) (readLsn writeLsn : Nat) : TransactionState :=
  { t with
    readSet := t.readSet.insert encodedKey readLsn
    writeSet := t.writeSet.insert encodedKey writeLsn }

/-- The ticket of a key that was not read before. -/
def sampleWrite (t : TransactionState) (e : Engine) (encodedKey : Key) :
    Option (TransactionState × Engine) :=
  (t.sampleReadVersion e encodedKey).map fun x =>
    match x with
    | (e, .ok visibleLsn) => (t.ticket encodedKey visibleLsn visibleLsn, e)
    | (e, .error sample) =>
      if sample.code = .kNotFound then (t.ticket encodedKey 0 0, e) else (t, e)

def recordWriteIntent (t : TransactionState) (e : Engine) (encodedKey : Key) :
    Option (TransactionState × Engine) :=
  if !t.active then some (t, e)
  else
    match t.readSet.find? encodedKey with
    | none => t.sampleWrite e encodedKey
    | some 0 =>
      (e.resolveCurrentCommittedLsn encodedKey).map fun x =>
        match x with
        | (e, .ok committed) => (t.ticket encodedKey committed committed, e)
        | (e, .error _) => (t.ticket encodedKey 0 0, e)
    | some lsn => some (t.ticket encodedKey lsn lsn, e)

def recordReadSample (t : TransactionState) (e : Engine) (encodedKey : Key) :
    Option (TransactionState × Engine) :=
  if !t.active || isIndexEncodedKey encodedKey then some (t, e)
  else
    (t.sampleReadVersion e encodedKey).map fun x =>
      match x with
      | (e, .ok visibleLsn) => ({ t with readSet := t.readSet.insert encodedKey visibleLsn }, e)
      | (e, .error sample) =>
        if sample.code = .kNotFound then
          ({ t with readSet := t.readSet.insert encodedKey 0 }, e)
        else (t, e)

def registerRangeScan (t : TransactionState) (e : Engine) (keyLo keyHi : Key) :
    TransactionState × Engine :=
  if !t.active then (t, e)
  else
    let snapshotLsn := t.snapshotToken.forShard 0
    ({ t with rangeTickets := t.rangeTickets ++ [⟨snapshotLsn, keyLo, keyHi⟩] },
      e.registerRangeTicket ⟨t.txnId, snapshotLsn, keyLo, keyHi⟩)

/-- `RecordBeforePut` and `RecordBeforeDelete`. -/
def recordBeforePut (t : TransactionState) (e : Engine) (encodedKey : Key) :
    Option (TransactionState × Engine) :=
  if !t.active then some (t, e)
  else
    (t.readKey e encodedKey).map fun x =>
      let entry : TxnJournalEntry :=
        match x.2.2 with
        | .ok v => ⟨encodedKey, true, v.value⟩
        | .error _ => ⟨encodedKey, false, []⟩
      ({ x.1 with journal := x.1.journal ++ [entry] }, x.2.1)

/-! ## Begin and end -/

/-- `Begin`, under the id `AllocateTxnId` handed out. -/
def begin (t : TransactionState) (e : Engine) (txnId : UInt32) :
    TransactionState × Engine × Except Status Unit :=
  if t.active then (t, e, .error (Status.invalidArgument "transaction already active"))
  else
    let token := e.captureSnapshot
    ({ idle with active := true, txnId := txnId, snapshotToken := token },
      (e.pinSnapshot token).appendTxnBegin txnId token, .ok ())

/-- The newest committed version of a key, `0` where there is none. -/
def currentLsn (e : Engine) (key : Key) : Option (Engine × Except Status Nat) :=
  (e.resolveCurrentCommittedLsn key).map fun x =>
    match x with
    | (e, .ok cur) => (e, .ok cur)
    | (e, .error rs) => if rs.code = .kNotFound then (e, .ok 0) else (e, .error rs)

/-- The loops of `ValidateCommitOCC`: each key is at the version that was recorded. -/
def validateLsns (conflict : String) (e : Engine) :
    List (Key × Nat) → Option (Engine × Except Status Unit)
  | [] => some (e, .ok ())
  | kv :: kvs =>
    match currentLsn e kv.1 with
    | none => none
    | some (e, .error rs) => some (e, .error rs)
    | some (e, .ok current) =>
      if kv.2 ≠ current then some (e, .error (Status.conflict conflict))
      else validateLsns conflict e kvs

def validateCommitOCC (t : TransactionState) (e : Engine) : Option (Engine × Except Status Unit) :=
  let reads := t.readSet.entries.filter fun kv => !t.writeSet.contains kv.1
  match validateLsns "snapshot conflict on key" e.refreshExternalWalForOCC reads with
  | none => none
  | some (e, .error st) => some (e, .error st)
  | some (e, .ok ()) =>
    match validateLsns "write ticket stale" e t.writeSet.entries with
    | none => none
    | some (e, .error st) => some (e, .error st)
    | some (e, .ok ()) => some (e, validateTickets e.tickets t.txnId t.writeSet)

def commit (t : TransactionState) (e : Engine) (tier : DurabilityClass) :
    Option (TransactionState × Engine × Except Status Unit) :=
  if !t.active then some (t, e, .error (Status.invalidArgument "no active transaction"))
  else
    match t.validateCommitOCC e with
    | none => none
    | some (e, .error occ) => some (t, e, .error occ)
    | some (e, .ok ()) =>
      let e := (((e.appendTxnCommit t.txnId).promoteTxn t.txnId).unregisterRangeTickets
        t.txnId).releaseSnapshot
      some (idle, if tier = .kGroup then e.groupCommit else e, .ok ())

/-- One entry of the journal undone, a key that had no value being deleted under this id. -/
def undo (e : Engine) (entry : TxnJournalEntry) (deleteTxnId : UInt32) : Option Engine :=
  (if entry.hadValue then e.put entry.engineKey entry.oldValue 0
    else e.delete entry.engineKey deleteTxnId).map (·.1)

/-- Entries undone, the first one first. -/
def undoAll (e : Engine) (deleteTxnId : UInt32) : List TxnJournalEntry → Option Engine
  | [] => some e
  | entry :: entries =>
    match undo e entry deleteTxnId with
    | none => none
    | some e => undoAll e deleteTxnId entries

def rollback (t : TransactionState) (e : Engine) :
    Option (TransactionState × Engine × Except Status Unit) :=
  if !t.active then some (t, e, .error (Status.invalidArgument "no active transaction"))
  else
    let e := ((e.appendTxnAbort t.txnId).clearTxn t.txnId).unregisterRangeTickets t.txnId
    (undoAll e 0 t.journal.reverse).map fun e => (idle, e.releaseSnapshot, .ok ())

/-! ## Savepoints -/

def savepoint (t : TransactionState) (name : String) : TransactionState × Except Status Unit :=
  if !t.active then (t, .error (Status.invalidArgument "no active transaction"))
  else
    ({ t with
        savepoints := t.savepoints ++ [t.journal.length]
        savepointNames := t.savepointNames ++ [name] }, .ok ())

def releaseSavepoint (t : TransactionState) (name : String) :
    TransactionState × Except Status Unit :=
  if !t.active then (t, .error (Status.invalidArgument "no active transaction"))
  else
    match t.savepointNames.idxOf? name with
    | none => (t, .error (Status.invalidArgument "savepoint not found"))
    | some i =>
      ({ t with
          savepoints := t.savepoints.eraseIdx i
          savepointNames := t.savepointNames.eraseIdx i }, .ok ())

def rollbackToSavepoint (t : TransactionState) (e : Engine) (name : String) :
    Option (TransactionState × Engine × Except Status Unit) :=
  if !t.active then some (t, e, .error (Status.invalidArgument "no active transaction"))
  else
    match t.savepointNames.idxOf? name with
    | none => some (t, e, .error (Status.invalidArgument "savepoint not found"))
    | some idx =>
      let keep := (t.savepoints[idx]?).getD 0
      (undoAll e t.txnId (t.journal.drop keep).reverse).map fun e =>
        ({ t with
            journal := t.journal.take keep
            savepoints := t.savepoints.take idx
            savepointNames := t.savepointNames.take idx }, e, .ok ())

end TransactionState
end EBTree.Sql
