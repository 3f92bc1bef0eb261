import Nisshi.Lib.OrderedMap
import Nisshi.SansIo.Merge
import Nisshi.Storage.ProduceService

/-! `combine` of the proxy: the batches that several requests sent to one partition become one batch, and an
owner whose batch does not merge is rejected. -/

namespace Nisshi.Proxy

open Nisshi.SansIo Nisshi.Lib Nisshi.Lib.MachineInt List Option
open Std (ExtTreeMap)

abbrev Uuid := Nat

structure OwnedBatch where
  owner : Uuid
  batch : Deflated.Batch
  deriving DecidableEq

structure OwnerBatch where
  owner : Uuid
  asSent : Deflated.Batch
  decoded : Inflated.Batch
  deriving DecidableEq

inductive BatchRejection where
  | offsetRange (lastOffsetDelta : Int32) (recordCount : UInt32)
  | multipleBatches (count : Nat)
  | decode (error : Error)
  | append (error : Error)
  | encode (error : Error)
  deriving DecidableEq

def BatchRejection.errorCode : BatchRejection → ErrorCode
  | .decode .messageMaxSizeExceeded => .messageTooLarge
  | .multipleBatches _ | .offsetRange _ _ | .decode _ | .append _ => .invalidRecord
  | .encode _ => .unknownServerError

structure Combined where
  forwarded : List Deflated.Batch
  rejected : ExtTreeMap Uuid BatchRejection

def i32TryFrom (value : UInt32) : Option Int32 :=
  if value.toNat < 2 ^ 31 then some (Int32.ofNat value.toNat) else none

def decode (codec : Codec) (batch : Deflated.Batch) : Except BatchRejection Inflated.Batch :=
  if i32TryFrom batch.recordCount ≠ checkedAdd32 batch.lastOffsetDelta 1 then
    .error (.offsetRange batch.lastOffsetDelta batch.recordCount)
  else (Inflated.Batch.tryFromValue codec batch).mapError .decode

structure Merging where
  sink : Inflated.Batch
  /-- The owners whose batches are in the sink, with their batches. -/
  mergedOwners : List OwnerBatch
  rejected : ExtTreeMap Uuid BatchRejection

def Merging.append (merging : Merging) (ownerBatch : OwnerBatch) : Merging :=
  match merging.sink.appendRebased ownerBatch.decoded with
  | .ok sink => { merging with sink, mergedOwners := merging.mergedOwners ++ [ownerBatch] }
  | .error error => { merging with rejected := merging.rejected.insert ownerBatch.owner (.append error) }

def Merging.run (first : OwnerBatch) (rest : List OwnerBatch) (rejected : ExtTreeMap Uuid BatchRejection) : Merging :=
  rest.foldl Merging.append { sink := first.decoded, mergedOwners := [first], rejected }

def merge (codec : Codec) (owners : List OwnerBatch) (rejected : ExtTreeMap Uuid BatchRejection) : Combined :=
  match owners with
  | [] => { forwarded := [], rejected }
  | first :: rest =>
    let merging := Merging.run first rest rejected
    if merging.mergedOwners.length = 1 then
      { forwarded := [first.asSent], rejected := merging.rejected }
    else
      match Deflated.Batch.tryFromInflated codec merging.sink with
      | some merged => { forwarded := [merged], rejected := merging.rejected }
      | none =>
        { forwarded := []
          rejected := merging.mergedOwners.foldl
            (fun rejected ownerBatch => rejected.insert ownerBatch.owner (.encode .overflow)) merging.rejected }

/-- `windows(2)`: every batch has the owner of the batch before it. -/
def sameOwner : List OwnedBatch → Bool
  | first :: second :: rest => first.owner == second.owner && sameOwner (second :: rest)
  | _ => true

def counts (batches : List OwnedBatch) : ExtTreeMap Uuid Nat :=
  batches.foldl (fun counts owned => counts.alter owned.owner fun count => some (count.getD 0 + 1)) ∅

def multiples (batches : List OwnedBatch) : ExtTreeMap Uuid BatchRejection :=
  (counts batches).filterMap fun _ count => if 1 < count then some (.multipleBatches count) else none

/-- The owners whose batches were decoded, in the order of the batches, and the owners that were rejected. -/
structure Decoding where
  owners : List OwnerBatch
  rejected : ExtTreeMap Uuid BatchRejection

def Decoding.next (codec : Codec) (decoding : Decoding) (owned : OwnedBatch) : Decoding :=
  if owned.owner ∈ decoding.rejected then decoding
  else
    match decode codec owned.batch with
    | .ok decoded =>
      { decoding with
        owners := decoding.owners ++ [{ owner := owned.owner, asSent := owned.batch, decoded }] }
    | .error rejection => { decoding with rejected := decoding.rejected.insert owned.owner rejection }

def Decoding.run (codec : Codec) (batches : List OwnedBatch) : Decoding :=
  batches.foldl (Decoding.next codec) { owners := [], rejected := multiples batches }

def combine (codec : Codec) (batches : List OwnedBatch) : Combined :=
  if sameOwner batches then { forwarded := batches.map (·.batch), rejected := ∅ }
  else
    let decoding := Decoding.run codec batches
    merge codec decoding.owners decoding.rejected

variable {codec : Codec} {batch : Deflated.Batch} {batches : List OwnedBatch} {owner : Uuid}

/-! Decoding. -/

structure Decodes (codec : Codec) (batch : Deflated.Batch) (part : Inflated.Batch) : Prop where
  value : Inflated.Batch.FromValue codec batch part
  counted : part.records.length = batch.recordCount.toNat
  offsets : part.lastOffsetDelta.toInt + 1 = batch.recordCount.toNat

theorem decodes_of_decode (ok : decode codec batch = .ok part) : Decodes codec batch part := by
  rw [decode] at ok
  split at ok
  · cases ok
  next range =>
    have value : Inflated.Batch.FromValue codec batch part := by
      apply Inflated.Batch.of_tryFromValue
      cases decoded : Inflated.Batch.tryFromValue codec batch with
      | error =>
        rw [decoded] at ok
        cases ok
      | ok =>
        rw [decoded] at ok
        cases ok
        rfl
    have read := Deflated.Batch.records_of_tryRecords value.records
    have small : batch.recordCount.toNat < 2 ^ 31 := by
      have within := (Deflated.Batch.count_of_records read).2
      rw [maxDecodedBatchBytes, Record.sizeOfRecord] at within
      omega
    refine ⟨value, (Deflated.Batch.count_of_records read).1, ?_⟩
    rw [i32TryFrom, if_pos small] at range
    have sum := toInt_checkedAdd32 (not_not.mp range).symm
    rw [Int32.toInt_ofNat_of_lt small, ← value.lastOffsetDelta] at sum
    exact sum.symm

def ownedBy (owner : Uuid) (batches : List OwnedBatch) : Nat :=
  batches.countP fun owned => owned.owner == owner

theorem getD_counts (batches : List OwnedBatch) (owner : Uuid) :
    (counts batches)[owner]?.getD 0 = ownedBy owner batches := by
  suffices counted : ∀ start : ExtTreeMap Uuid Nat,
      (batches.foldl (fun counts owned => counts.alter owned.owner fun count => some (count.getD 0 + 1))
        start)[owner]?.getD 0 = start[owner]?.getD 0 + ownedBy owner batches by
    have whole := counted ∅
    rw [ExtTreeMap.getElem?_empty, getD_none, Nat.zero_add] at whole
    exact whole
  induction batches with
  | nil => exact fun _ => rfl
  | cons owned rest ih =>
    intro start
    rw [foldl_cons, ih, ownedBy, ownedBy, countP_cons, ExtTreeMap.getElem?_alter]
    by_cases own : owned.owner = owner
    · subst own
      simp only [Std.compare_self, if_true, getD_some, beq_self_eq_true]
      omega
    · simp [own]

theorem getElem?_multiples (batches : List OwnedBatch) (owner : Uuid) : (multiples batches)[owner]? =
      if 1 < ownedBy owner batches then some (.multipleBatches (ownedBy owner batches)) else none := by
  rw [multiples, ExtTreeMap.getElem?_filterMap, ← getD_counts]
  cases (counts batches)[owner]? with
  | none | some => rfl

theorem mem_multiples : owner ∈ multiples batches ↔ 1 < ownedBy owner batches := by
  rw [ExtTreeMap.mem_iff_isSome_getElem?, getElem?_multiples]
  split <;> simp_all

theorem not_owned_before {done : List OwnedBatch} (one : ¬1 < ownedBy owned.owner (done ++ owned :: rest)) :
    ∀ other ∈ done, other.owner ≠ owned.owner := by
  intro other member same
  apply one
  have before : 0 < ownedBy owned.owner done :=
    countP_pos_iff.mpr ⟨other, member, beq_iff_eq.mpr same⟩
  rw [ownedBy, countP_append, countP_cons_of_pos (by simp)]
  rw [ownedBy] at before
  omega

/-- What is decoded of a batch, unless its owner sent several. -/
def decodeOne (codec : Codec) (batches : List OwnedBatch) (owned : OwnedBatch) : Option OwnerBatch :=
  if 1 < ownedBy owned.owner batches then none
  else (decode codec owned.batch).toOption.map fun decoded =>
    { owner := owned.owner, asSent := owned.batch, decoded }

def decodable (codec : Codec) (batches : List OwnedBatch) : List OwnerBatch :=
  batches.filterMap (decodeOne codec batches)

namespace Decoding

structure Sorted (codec : Codec) (batches done : List OwnedBatch) (decoding : Decoding) : Prop where
  sent : ∀ own ∈ decoding.owners, { owner := own.owner, batch := own.asSent } ∈ done ∧
    decode codec own.asSent = .ok own.decoded ∧ own.owner ∉ decoding.rejected
  once : (decoding.owners.map (·.owner)).Nodup
  each : ∀ owned ∈ done, owned.owner ∈ decoding.rejected ∨
    ∃ own ∈ decoding.owners, own.owner = owned.owner ∧ own.asSent = owned.batch
  multiple : ∀ owner ∈ multiples batches, owner ∈ decoding.rejected
  reason : ∀ owner reason, decoding.rejected[owner]? = some reason → (multiples batches)[owner]? = some reason ∨
      owner ∉ multiples batches ∧ ∃ owned ∈ done, owned.owner = owner ∧ decode codec owned.batch = .error reason

theorem Sorted.next {owned : OwnedBatch} (sorted : Sorted codec (done ++ owned :: rest) done decoding) :
    Sorted codec (done ++ owned :: rest) (done ++ [owned]) (decoding.next codec owned) := by
  have later : ∀ {one : OwnedBatch}, one ∈ done → one ∈ done ++ [owned] := mem_append_left _
  have reasons : ∀ owner reason, decoding.rejected[owner]? = some reason →
      (multiples (done ++ owned :: rest))[owner]? = some reason ∨ owner ∉ multiples (done ++ owned :: rest) ∧
        ∃ one ∈ done ++ [owned], one.owner = owner ∧ decode codec one.batch = .error reason := by
    intro owner reason found
    rcases sorted.reason owner reason found with multiple | ⟨single, one, before, rest⟩
    · exact .inl multiple
    · exact .inr ⟨single, one, later before, rest⟩
  rw [Decoding.next]
  split
  next known =>
    refine { sorted with sent := ?_, each := ?_, reason := reasons }
    · intro own member
      obtain ⟨sent, rest⟩ := sorted.sent own member
      exact ⟨later sent, rest⟩
    · exact Log.forall_mem_concat.mpr ⟨sorted.each, .inl known⟩
  next unknown =>
    -- The owner has no other batch, so nothing is said of it yet.
    have first := not_owned_before fun many => unknown (sorted.multiple _ (mem_multiples.mpr many))
    split
    next ok =>
      refine { sorted with sent := ?_, once := ?_, each := ?_, reason := reasons }
      · intro own member
        rcases Log.mem_concat.mp member with before | rfl
        · obtain ⟨sent, rest⟩ := sorted.sent own before
          exact ⟨later sent, rest⟩
        · exact ⟨List.mem_append_right _ mem_cons_self, ok, unknown⟩
      · rw [map_append, nodup_append]
        refine ⟨sorted.once, pairwise_singleton _ _, ?_⟩
        intro owner before other here
        obtain ⟨own, member, rfl⟩ := mem_map.mp before
        rw [mem_singleton.mp here]
        exact first _ (sorted.sent own member).1
      · intro one member
        rcases Log.mem_concat.mp member with before | rfl
        · rcases sorted.each one before with gone | ⟨own, kept, same⟩
          · exact .inl gone
          · exact .inr ⟨own, mem_append_left _ kept, same⟩
        · exact .inr ⟨_, mem_append_right _ mem_cons_self, rfl, rfl⟩
    next failed =>
      refine { once := sorted.once, sent := ?_, each := ?_, multiple := ?_, reason := ?_ }
      · intro own member
        obtain ⟨sent, ok, kept⟩ := sorted.sent own member
        refine ⟨later sent, ok, fun gone => ?_⟩
        rcases ExtTreeMap.mem_insert.mp gone with same | before
        · exact first _ sent (Std.LawfulEqCmp.eq_of_compare same).symm
        · exact kept before
      · intro one member
        rcases Log.mem_concat.mp member with before | rfl
        · rcases sorted.each one before with gone | kept
          · exact .inl (ExtTreeMap.mem_insert.mpr (.inr gone))
          · exact .inr kept
        · exact .inl ExtTreeMap.mem_insert_self
      · intro owner many
        exact ExtTreeMap.mem_insert.mpr (.inr (sorted.multiple owner many))
      · intro owner reason found
        rw [ExtTreeMap.getElem?_insert] at found
        split at found
        next same =>
          cases found
          obtain rfl := Std.LawfulEqCmp.eq_of_compare same
          refine .inr ⟨fun many => unknown (sorted.multiple _ many), owned, ?_, rfl, failed⟩
          exact mem_append_right _ mem_cons_self
        next => exact reasons owner reason found

theorem sorted_foldl {done : List OwnedBatch} (sorted : Sorted codec (done ++ rest) done decoding) :
    Sorted codec (done ++ rest) (done ++ rest) (rest.foldl (Decoding.next codec) decoding) := by
  induction rest generalizing done decoding with
  | nil => rwa [append_nil] at sorted ⊢
  | cons owned rest ih =>
    have next := sorted.next
    rw [append_cons done owned rest] at next ⊢
    exact ih next

theorem Sorted.mem_rejected_iff {owned : OwnedBatch} (sorted : Sorted codec (done ++ owned :: rest) done decoding) :
    owned.owner ∈ decoding.rejected ↔ 1 < ownedBy owned.owner (done ++ owned :: rest) := by
  refine ⟨fun gone => ?_, fun many => sorted.multiple _ (mem_multiples.mpr many)⟩
  by_contra one
  obtain ⟨reason, found⟩ := isSome_iff_exists.mp (ExtTreeMap.mem_iff_isSome_getElem?.mp gone)
  rcases sorted.reason _ reason found with multiple | ⟨_, other, before, same, _⟩
  · rw [getElem?_multiples, if_neg one] at multiple
    cases multiple
  · exact not_owned_before one other before same

theorem owners_next {owned : OwnedBatch} (sorted : Sorted codec (done ++ owned :: rest) done decoding) :
    (decoding.next codec owned).owners =
      decoding.owners ++ (decodeOne codec (done ++ owned :: rest) owned).toList := by
  rw [next, decodeOne]
  simp only [sorted.mem_rejected_iff]
  split
  next => exact (append_nil _).symm
  next =>
    cases decode codec owned.batch with
    | ok => rfl
    | error => exact (append_nil _).symm

theorem owners_foldl {done : List OwnedBatch} (sorted : Sorted codec (done ++ rest) done decoding) :
    (rest.foldl (Decoding.next codec) decoding).owners =
      decoding.owners ++ rest.filterMap (decodeOne codec (done ++ rest)) := by
  induction rest generalizing done decoding with
  | nil => exact (append_nil _).symm
  | cons owned rest ih =>
    have next := sorted.next
    have owners := owners_next sorted
    rw [append_cons done owned rest] at next owners ⊢
    rw [foldl_cons, ih next, owners, append_assoc, filterMap_cons]
    cases decodeOne codec (done ++ [owned] ++ rest) owned <;> rfl

theorem sorted_start (codec : Codec) (batches : List OwnedBatch) :
    Sorted codec ([] ++ batches) [] { owners := [], rejected := multiples batches } := by
  refine ⟨?_, nodup_nil, ?_, fun _ many => many, fun _ _ found => .inl found⟩
  · exact fun _ none => absurd none not_mem_nil
  · exact fun _ none => absurd none not_mem_nil

theorem sorted_run (codec : Codec) (batches : List OwnedBatch) : Sorted codec batches batches (run codec batches) :=
  sorted_foldl (sorted_start codec batches)

theorem owners_run (codec : Codec) (batches : List OwnedBatch) :
    (run codec batches).owners = decodable codec batches :=
  owners_foldl (sorted_start codec batches)

end Decoding

/-! Merging. -/

namespace Merging

variable {first : OwnerBatch} {start : ExtTreeMap Uuid BatchRejection}

/-- What is known once the owners that are done were appended to the first. -/
structure Kept (first : OwnerBatch) (start : ExtTreeMap Uuid BatchRejection) (done : List OwnerBatch)
    (merging : Merging) : Prop where
  merged : ∃ appended, merging.mergedOwners = first :: appended ∧ appended.Sublist done ∧
    (appended.map (·.decoded)).foldlM Inflated.Batch.appendRebased first.decoded = .ok merging.sink
  each : ∀ own ∈ done, own.owner ∈ merging.rejected ∨ own ∈ merging.mergedOwners
  apart : ∀ own ∈ merging.mergedOwners, own.owner ∉ merging.rejected
  rejected : ∀ owner ∈ start, owner ∈ merging.rejected
  reason : ∀ owner reason, merging.rejected[owner]? = some reason → start[owner]? = some reason ∨
    (∃ own ∈ done, own.owner = owner) ∧ ∃ error, reason = .append error

theorem Kept.mem {done : List OwnerBatch} (kept : Kept first start done merging) :
    ∀ own ∈ merging.mergedOwners, own ∈ first :: done := by
  obtain ⟨_, same, sublist, _⟩ := kept.merged
  rw [same]
  exact (sublist.cons_cons first).subset

theorem Kept.append {done : List OwnerBatch} {own : OwnerBatch} {merging : Merging}
    (new : ∀ other ∈ first :: done, other.owner ≠ own.owner) (free : own.owner ∉ start)
    (kept : Kept first start done merging) : Kept first start (done ++ [own]) (merging.append own) := by
  obtain ⟨appended, same, sublist, folded⟩ := kept.merged
  rw [Merging.append]
  split
  next ok =>
    refine ⟨⟨appended ++ [own], ?_, sublist.append (List.Sublist.refl _), ?_⟩, ?_, ?_, kept.rejected, ?_⟩
    · rw [same]
      rfl
    · rw [map_append, foldlM_append]
      exact bind_eq_ok_iff.mpr ⟨_, folded, bind_eq_ok_iff.mpr ⟨_, ok, rfl⟩⟩
    · intro one member
      rcases mem_append.mp member with before | here
      · exact (kept.each one before).imp_right (mem_append_left _)
      · exact .inr (mem_append_right _ here)
    · intro one member
      rcases Log.mem_concat.mp member with before | rfl
      · exact kept.apart one before
      · intro gone
        obtain ⟨_, found⟩ := ExtTreeMap.mem_iff_isSome_getElem?.trans isSome_iff_exists |>.mp gone
        rcases kept.reason _ _ found with before | ⟨⟨other, listed, same⟩, _⟩
        · exact free (ExtTreeMap.mem_iff_isSome_getElem?.mpr (isSome_of_eq_some before))
        · exact new other (mem_cons_of_mem _ listed) same
    · intro owner reason found
      rcases kept.reason owner reason found with before | ⟨⟨other, listed, same⟩, rest⟩
      · exact .inl before
      · exact .inr ⟨⟨other, mem_append_left _ listed, same⟩, rest⟩
  next error _ =>
    refine ⟨⟨appended, same, sublist.trans (sublist_append_left _ _), folded⟩, ?_, ?_, ?_, ?_⟩
    · intro one member
      rcases Log.mem_concat.mp member with before | rfl
      · exact (kept.each one before).imp_left fun gone => ExtTreeMap.mem_insert.mpr (.inr gone)
      · exact .inl ExtTreeMap.mem_insert_self
    · intro one member gone
      rcases ExtTreeMap.mem_insert.mp gone with same | before
      · exact new one (kept.mem one member) (Std.LawfulEqCmp.eq_of_compare same).symm
      · exact kept.apart one member before
    · intro owner before
      exact ExtTreeMap.mem_insert.mpr (.inr (kept.rejected owner before))
    · intro owner reason found
      rw [ExtTreeMap.getElem?_insert] at found
      split at found
      next same =>
        cases found
        exact .inr ⟨⟨own, mem_append_right _ mem_cons_self, Std.LawfulEqCmp.eq_of_compare same⟩, error, rfl⟩
      next =>
        rcases kept.reason owner reason found with before | ⟨⟨other, listed, same⟩, rest⟩
        · exact .inl before
        · exact .inr ⟨⟨other, mem_append_left _ listed, same⟩, rest⟩

theorem kept_foldl {done : List OwnerBatch} (once : ((first :: done ++ rest).map (·.owner)).Nodup)
    (free : ∀ own ∈ rest, own.owner ∉ start)
    (kept : Kept first start done merging) :
    Kept first start (done ++ rest) (rest.foldl Merging.append merging) := by
  induction rest generalizing done merging with
  | nil => rwa [append_nil]
  | cons own rest ih =>
    have new : ∀ other ∈ first :: done, other.owner ≠ own.owner := by
      intro other member
      rw [map_append, nodup_append] at once
      exact once.2.2 _ (mem_map_of_mem member) _ mem_cons_self
    obtain ⟨here, there⟩ := forall_mem_cons.mp free
    rw [append_cons done own rest]
    apply ih _ there (kept.append new here)
    rwa [cons_append, append_assoc, singleton_append]

theorem kept_run (once : ((first :: rest).map (·.owner)).Nodup)
    (free : ∀ own ∈ first :: rest, own.owner ∉ start) : Kept first start rest (run first rest start) := by
  obtain ⟨here, there⟩ := forall_mem_cons.mp free
  have begun : Kept first start [] { sink := first.decoded, mergedOwners := [first], rejected := start } := by
    refine ⟨⟨[], rfl, .slnil, rfl⟩, ?_, ?_, fun _ before => before, fun _ _ => .inl⟩
    · exact fun _ none => absurd none not_mem_nil
    · intro own member
      rw [mem_singleton.mp member]
      exact here
  exact kept_foldl once there begun

end Merging

def joined (codec : Codec) (batches : List OwnedBatch) : List OwnerBatch :=
  let decoding := Decoding.run codec batches
  match decoding.owners with
  | [] => []
  | first :: rest => (Merging.run first rest decoding.rejected).mergedOwners

inductive Forwards (codec : Codec) : List OwnerBatch → List Deflated.Batch → Prop where
  | nothing : Forwards codec [] []
  | alone (own : OwnerBatch) : Forwards codec [own] [own.asSent]
  | merged {first second : OwnerBatch} {rest : List OwnerBatch} {whole : Inflated.Batch} {merged : Deflated.Batch}
      (folded : ((second :: rest).map (·.decoded)).foldlM Inflated.Batch.appendRebased first.decoded = .ok whole)
      (encoded : Deflated.Batch.tryFromInflated codec whole = some merged) :
      Forwards codec (first :: second :: rest) [merged]
  | unencoded {first second : OwnerBatch} {rest : List OwnerBatch} {whole : Inflated.Batch}
      (folded : ((second :: rest).map (·.decoded)).foldlM Inflated.Batch.appendRebased first.decoded = .ok whole)
      (failed : Deflated.Batch.tryFromInflated codec whole = none) :
      Forwards codec (first :: second :: rest) []

inductive Rejects (codec : Codec) (batches : List OwnedBatch) (joined : List OwnerBatch) (owner : Uuid) :
    BatchRejection → Prop where
  | multiple (many : 1 < ownedBy owner batches) :
    Rejects codec batches joined owner (.multipleBatches (ownedBy owner batches))
  | undecoded {owned : OwnedBatch} {reason : BatchRejection} (one : ¬1 < ownedBy owner batches)
      (listed : owned ∈ batches) (own : owned.owner = owner) (failed : decode codec owned.batch = .error reason) :
    Rejects codec batches joined owner reason
  | unappended {owned : OwnedBatch} {part : Inflated.Batch} (one : ¬1 < ownedBy owner batches)
      (listed : owned ∈ batches) (own : owned.owner = owner) (decoded : decode codec owned.batch = .ok part)
      (apart : ∀ other ∈ joined, other.owner ≠ owner) (error : Error) :
    Rejects codec batches joined owner (.append error)
  | unencoded {own : OwnerBatch} (joins : own ∈ joined) (mine : own.owner = owner) (error : Error) :
    Rejects codec batches joined owner (.encode error)

/-- What `combine` does with the batches of more than one owner. -/
structure Accounts (codec : Codec) (batches : List OwnedBatch) (joined : List OwnerBatch) (combined : Combined) :
    Prop where
  sent : ∀ own ∈ joined, { owner := own.owner, batch := own.asSent } ∈ batches ∧
    decode codec own.asSent = .ok own.decoded
  once : (joined.map (·.owner)).Nodup
  single : ∀ own ∈ joined, ¬1 < ownedBy own.owner batches
  forwards : Forwards codec joined combined.forwarded
  apart : combined.forwarded ≠ [] → ∀ own ∈ joined, own.owner ∉ combined.rejected
  each : ∀ owned ∈ batches, owned.owner ∈ combined.rejected ∨
    combined.forwarded ≠ [] ∧ ∃ own ∈ joined, own.owner = owned.owner ∧ own.asSent = owned.batch
  reason : ∀ owner reason, combined.rejected[owner]? = some reason → Rejects codec batches joined owner reason

theorem rejects_of_decoding {decoding : Decoding} (sorted : Decoding.Sorted codec batches batches decoding)
    (joined : List OwnerBatch) (owner : Uuid) (reason : BatchRejection)
    (found : decoding.rejected[owner]? = some reason) : Rejects codec batches joined owner reason := by
  rcases sorted.reason owner reason found with multiple | ⟨one, _, listed, own, failed⟩
  · rw [getElem?_multiples] at multiple
    split at multiple
    next many =>
      cases multiple
      exact .multiple many
    next => cases multiple
  · exact .undecoded (fun many => one (mem_multiples.mpr many)) listed own failed

section Merged

variable {first : OwnerBatch} {rest : List OwnerBatch} {rejected : ExtTreeMap Uuid BatchRejection}
  (sorted : Decoding.Sorted codec batches batches { owners := first :: rest, rejected })

include sorted

theorem kept_of_sorted : Merging.Kept first rejected rest (Merging.run first rest rejected) :=
  Merging.kept_run sorted.once fun own listed => (sorted.sent own listed).2.2

theorem rejects_of_merging (owner : Uuid) (reason : BatchRejection)
    (found : (Merging.run first rest rejected).rejected[owner]? = some reason) :
    Rejects codec batches (Merging.run first rest rejected).mergedOwners owner reason := by
  have kept := kept_of_sorted sorted
  have gone : owner ∈ (Merging.run first rest rejected).rejected :=
    ExtTreeMap.mem_iff_isSome_getElem?.mpr (isSome_of_eq_some found)
  rcases kept.reason owner reason found with before | ⟨⟨own, member, rfl⟩, error, rfl⟩
  · exact rejects_of_decoding sorted _ owner reason before
  · obtain ⟨listed, ok, free⟩ := sorted.sent own (mem_cons_of_mem _ member)
    refine .unappended (fun many => ?_) listed rfl ok (fun other merged same => ?_) error
    · exact free (sorted.multiple _ (mem_multiples.mpr many))
    · exact kept.apart other merged (same ▸ gone)

theorem rejected_or_merged : ∀ owned ∈ batches, owned.owner ∈ (Merging.run first rest rejected).rejected ∨
    ∃ own ∈ (Merging.run first rest rejected).mergedOwners, own.owner = owned.owner ∧ own.asSent = owned.batch := by
  have kept := kept_of_sorted sorted
  intro owned listed
  rcases sorted.each owned listed with gone | ⟨own, member, same, asSent⟩
  · exact .inl (kept.rejected _ gone)
  · rcases mem_cons.mp member with rfl | later
    · obtain ⟨_, whole, _⟩ := kept.merged
      exact .inr ⟨own, by rw [whole]; exact mem_cons_self, same, asSent⟩
    · rcases kept.each own later with gone | merged
      · exact .inl (same ▸ gone)
      · exact .inr ⟨own, merged, same, asSent⟩

theorem sent_of_merged : ∀ own ∈ (Merging.run first rest rejected).mergedOwners,
    ({ owner := own.owner, batch := own.asSent } ∈ batches ∧ decode codec own.asSent = .ok own.decoded) ∧
      ¬1 < ownedBy own.owner batches := by
  intro own member
  obtain ⟨listed, ok, free⟩ := sorted.sent own ((kept_of_sorted sorted).mem own member)
  exact ⟨⟨listed, ok⟩, fun many => free (sorted.multiple _ (mem_multiples.mpr many))⟩

theorem once_merged : ((Merging.run first rest rejected).mergedOwners.map (·.owner)).Nodup := by
  obtain ⟨_, whole, sublist, _⟩ := (kept_of_sorted sorted).merged
  rw [whole]
  exact ((sublist.cons_cons first).map _).nodup sorted.once

theorem accounts_merge : Accounts codec batches (Merging.run first rest rejected).mergedOwners
    (merge codec (first :: rest) rejected) := by
  obtain ⟨parts, whole, _, folded⟩ := (kept_of_sorted sorted).merged
  have apart := (kept_of_sorted sorted).apart
  have appended := rejects_of_merging sorted
  have each := rejected_or_merged sorted
  have once := once_merged sorted
  have sent := fun own member => (sent_of_merged sorted own member).1
  have single := fun own member => (sent_of_merged sorted own member).2
  simp only [merge]
  generalize Merging.run first rest rejected = merging at *
  obtain ⟨sink, mergedOwners, _⟩ := merging
  obtain rfl : mergedOwners = first :: parts := whole
  cases parts with
  | nil =>
    refine ⟨sent, once, single, .alone first, fun _ => apart, ?_, appended⟩
    intro owned listed
    exact (each owned listed).imp_right fun found => ⟨List.cons_ne_nil _ _, found⟩
  | cons =>
    rw [if_neg (by simp)]
    cases encoded : Deflated.Batch.tryFromInflated codec sink with
    | some =>
      refine ⟨sent, once, single, .merged folded encoded, fun _ => apart, ?_, appended⟩
      intro owned listed
      exact (each owned listed).imp_right fun found => ⟨List.cons_ne_nil _ _, found⟩
    | none =>
      refine ⟨sent, once, single, .unencoded folded encoded, fun some => absurd rfl some, ?_, ?_⟩
      · intro owned listed
        rw [OrderedMap.mem_foldl_insert]
        rcases each owned listed with gone | ⟨own, member, same, _⟩
        · exact .inl (.inl gone)
        · exact .inl (.inr ⟨own, member, same⟩)
      · intro owner reason found
        rcases OrderedMap.of_getElem?_foldl_insert found with before | ⟨_, member, same, rfl⟩
        · exact appended owner reason before
        · exact .unencoded member same _

end Merged

theorem accounts_combine (codec : Codec) (mixed : sameOwner batches = false) :
    Accounts codec batches (joined codec batches) (combine codec batches) := by
  have sorted := Decoding.sorted_run codec batches
  rw [combine, if_neg (by rw [mixed]; decide), joined]
  generalize Decoding.run codec batches = decoding at sorted
  obtain ⟨owners, rejected⟩ := decoding
  cases owners with
  | nil =>
    refine ⟨fun _ none => absurd none not_mem_nil, nodup_nil, fun _ none => absurd none not_mem_nil,
      .nothing, fun some => absurd rfl some, ?_, rejects_of_decoding sorted []⟩
    intro owned listed
    rcases sorted.each owned listed with gone | ⟨_, none, _⟩
    · exact .inl gone
    · cases none
  | cons => exact accounts_merge sorted

/-! Damaged batches. The checksum of a batch is not looked at when it is decoded, and a merged batch gets a
checksum of its own. -/

def Damaged (codec : Codec) (batch : Deflated.Batch) : Prop :=
  batch.computedCrc codec ≠ batch.crc

instance (codec : Codec) (batch : Deflated.Batch) : Decidable (Damaged codec batch) :=
  inferInstanceAs (Decidable (_ ≠ _))

/-- The batches hold a record with the same key, value, headers and attributes. -/
def SharesRecord (codec : Codec) (batch other : Deflated.Batch) : Prop :=
  ∃ records others, batch.records codec = some records ∧ other.records codec = some others ∧
    ∃ record ∈ records, ∃ moved ∈ others, record.SameContent moved

/-- No batch of another owner can be joined to the batch: there is no other owner, the owner sent several, the batch
does not decode, or no batch of another owner does. -/
def StaysAlone (codec : Codec) (batches : List OwnedBatch) (owned : OwnedBatch) : Prop :=
  sameOwner batches = true ∨ 1 < ownedBy owned.owner batches ∨ (∀ part, decode codec owned.batch ≠ .ok part) ∨
    ∀ other ∈ batches, other.owner ≠ owned.owner → ∀ part, decode codec other.batch ≠ .ok part

theorem records_of_decode (ok : decode codec batch = .ok part) : batch.records codec = some part.records :=
  Deflated.Batch.records_of_tryRecords (decodes_of_decode ok).value.records

theorem compression_of_foldlM {first : OwnerBatch} {rest : List OwnerBatch}
    (decoded : decode codec first.asSent = .ok first.decoded)
    (folded : (rest.map (·.decoded)).foldlM Inflated.Batch.appendRebased first.decoded = .ok whole) :
    Compression.tryFrom whole.attributes = some .none := by
  obtain ⟨_, _, cleared⟩ := (decodes_of_decode decoded).value.marks
  rw [Inflated.Batch.foldlM_appendRebased folded, cleared, BatchAttribute.compression_toI16]

theorem exists_of_mem_recordsFrom {parts : List Inflated.Batch}
    (member : moved ∈ Inflated.Batch.recordsFrom base offset parts) :
    ∃ part ∈ parts, ∃ record ∈ part.records, record.SameContent moved := by
  induction parts generalizing offset with
  | nil => cases member
  | cons part parts ih =>
    rcases mem_append.mp member with here | there
    · obtain ⟨record, listed, rfl⟩ := mem_map.mp here
      exact ⟨part, mem_cons_self, record, listed, rfl, rfl, rfl, rfl⟩
    · obtain ⟨other, listed, rest⟩ := ih there
      exact ⟨other, mem_cons_of_mem _ listed, rest⟩

/-- A record of a merged batch is a record of one of the batches that were joined. -/
theorem exists_of_mem_merged {first : OwnerBatch} {rest : List OwnerBatch} {whole : Inflated.Batch}
    {merged : Deflated.Batch} (decoded : decode codec first.asSent = .ok first.decoded)
    (folded : (rest.map (·.decoded)).foldlM Inflated.Batch.appendRebased first.decoded = .ok whole)
    (encoded : Deflated.Batch.tryFromInflated codec whole = some merged) (read : merged.records codec = some records)
    (member : moved ∈ records) :
    ∃ own ∈ first :: rest, ∃ record ∈ own.decoded.records, record.SameContent moved := by
  have same := Inflated.Batch.foldlM_appendRebased folded
  have known := compression_of_foldlM decoded folded
  have fits := Deflated.fits_of_tryFromInflated known encoded
  obtain ⟨_, again, carries⟩ : ∃ other, Deflated.Batch.tryFromInflated codec whole = some other ∧
      other.Carries whole := Deflated.tryFromInflated_eq known fits
  rw [encoded] at again
  cases again
  rw [Deflated.records_eq known fits carries] at read
  split at read
  next =>
    cases read
    rw [same] at member
    rcases mem_append.mp member with here | there
    · exact ⟨first, mem_cons_self, moved, here, rfl, rfl, rfl, rfl⟩
    · obtain ⟨_, listed, rest⟩ := exists_of_mem_recordsFrom there
      obtain ⟨own, joins, rfl⟩ := mem_map.mp listed
      exact ⟨own, mem_cons_of_mem _ joins, rest⟩
  next => cases read

/-- A record of a forwarded batch is a record of a batch that was joined. -/
theorem Forwards.exists_shared {joined : List OwnerBatch} {one : Deflated.Batch}
    (forwards : Forwards codec joined forwarded)
    (sent : ∀ own ∈ joined, decode codec own.asSent = .ok own.decoded) (member : one ∈ forwarded)
    (shares : SharesRecord codec batch one) :
    ∃ own ∈ joined, SharesRecord codec batch own.asSent ∧ (one = own.asSent ∨ 2 ≤ joined.length) := by
  cases forwards with
  | nothing | unencoded => cases member
  | alone own =>
    obtain rfl := mem_singleton.mp member
    exact ⟨own, mem_cons_self, shares, .inl rfl⟩
  | @merged first second rest _ _ folded encoded =>
    obtain rfl := mem_singleton.mp member
    obtain ⟨records, moved, decoded, read, record, has, copy, among, same⟩ := shares
    obtain ⟨own, joins, source, within, content⟩ :=
      exists_of_mem_merged (sent first mem_cons_self) folded encoded read among
    refine ⟨own, joins, ⟨records, _, decoded, records_of_decode (sent own joins), record, has, source, within, ?_⟩,
      .inr (by simp)⟩
    exact same.of_same content

theorem exists_other_owner {joined : List OwnerBatch} (once : (joined.map (·.owner)).Nodup) (many : 2 ≤ joined.length)
    (owner : Uuid) : ∃ other ∈ joined, other.owner ≠ owner := by
  match joined with
  | first :: second :: rest =>
    by_contra none
    simp only [not_exists, not_and, not_not] at none
    have same : second.owner = first.owner :=
      (none second (mem_cons_of_mem _ mem_cons_self)).trans (none first mem_cons_self).symm
    exact (nodup_cons.mp once).1 (mem_map.mpr ⟨second, mem_cons_self, same⟩)

open Storage.ProduceService (plainCodec emptyRecord)

theorem measured_value : (57 : Int32).toInt =
    Deflated.fixedBatchLength + [14, 0, 0, 0, 1, 2, 1, (0 : UInt8)].length := by
  decide

/-- One record with a value, in a batch whose checksum does not match. -/
def damagedValue : Deflated.Batch :=
  { emptyRecord with
    batchLength := 57, recordData := [14, 0, 0, 0, 1, 2, 1, 0], crc := 0, measured := measured_value }

def valueRecord : Record where
  attributes := 0
  timestampDelta := 0
  offsetDelta := 0
  key := none
  value := some [1]
  headers := []

theorem records_damagedValue (lastOffsetDelta : Int32) :
    ({ damagedValue with lastOffsetDelta } : Deflated.Batch).records plainCodec = some [valueRecord] := by
  have same : ({ damagedValue with lastOffsetDelta } : Deflated.Batch).records plainCodec =
      damagedValue.records plainCodec := by
    simp only [Deflated.Batch.records, Deflated.Batch.tryRecords]
    rfl
  rw [same]
  decide +kernel

theorem not_sharesRecord_emptyRecord (lastOffsetDelta : Int32) :
    ¬SharesRecord plainCodec { damagedValue with lastOffsetDelta } emptyRecord := by
  rintro ⟨_, _, read, found, _, has, _, among, -, -, value, -⟩
  have empty : emptyRecord.records plainCodec = some [{ valueRecord with value := none }] := by decide +kernel
  rw [records_damagedValue] at read
  cases read
  rw [empty] at found
  cases found
  rw [mem_singleton.mp has, mem_singleton.mp among] at value
  cases value

/-- The second batch is damaged, and does not have as many offsets as records. -/
def damagedRange : List OwnedBatch :=
  [{ owner := 1, batch := emptyRecord }, { owner := 2, batch := { damagedValue with lastOffsetDelta := 5 } }]

def damagedSecond : List OwnedBatch :=
  [{ owner := 1, batch := emptyRecord }, { owner := 2, batch := damagedValue }]

end Nisshi.Proxy
