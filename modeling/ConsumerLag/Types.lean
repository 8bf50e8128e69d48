import Mathlib
import ConsumerLag.HashMap

/-!
# The values the lag register handles

`Lag`, `LagWithOwner` and `GroupWithLag` are those of `lag_register/register.rs`.
`TopicPartition`, `Member`, `Group` and `GroupWithMembers` come from modules that are not in
the sources (`kafka_types`, `consumer_groups`) and follow the spec's data model; the event
types keep the fields the register reads of the `konsumer_offsets` records. Times are
nanoseconds: a `DateTime<Utc>` is an instant since the epoch, a `chrono::Duration` a span.
-/
namespace ConsumerLag

/-- `x as u32` for an `i32`. -/
def asU32 (x : Int) : ℕ := (x % 2 ^ 32).toNat

/-- `x as u64` for an `i64`. -/
def asU64 (x : Int) : ℕ := (x % 2 ^ 64).toNat

/-- An `i32` cast to `u32` wraps a negative value around `2 ^ 32`. -/
theorem asU32_of_i32 {x : Int} (h : -2 ^ 31 ≤ x ∧ x < 2 ^ 31) :
    asU32 x = (if x < 0 then x + 2 ^ 32 else x).toNat := by
  unfold asU32
  split_ifs <;> omega

/-- An `i64` cast to `u64` wraps a negative value around `2 ^ 64`. -/
theorem asU64_of_i64 {x : Int} (h : -2 ^ 63 ≤ x ∧ x < 2 ^ 63) :
    (asU64 x : Int) = if x < 0 then x + 2 ^ 64 else x := by
  unfold asU64
  split_ifs <;> omega

/-- `chrono::Duration::seconds`. -/
def Duration.seconds (s : Int) : Int := s * 1000000000

/-- `LAG_STALE_AFTER`. -/
def lagStaleAfter : Int := Duration.seconds 5

/-- Modelled from the spec: `kafka_types::TopicPartition`, a topic and a partition id. -/
structure TopicPartition where
  topic : String
  partition : ℕ
  deriving DecidableEq, Repr

/-- Modelled from the spec: `kafka_types::Member`. -/
structure Member where
  id : String
  clientId : String
  clientHost : String
  deriving DecidableEq, Repr

/-- Modelled from the spec: `kafka_types::Group`. -/
structure Group where
  name : String
  state : String
  protocol : String
  protocolType : String
  deriving DecidableEq, Repr

/-- Modelled from the spec: a member of a `GroupWithMembers` and the partitions assigned to it. -/
structure MemberWithAssignment where
  member : Member
  assignment : HashSet TopicPartition
  deriving DecidableEq

/-- Modelled from the spec: what `ConsumerGroupsRegister::get_group` returns. -/
structure GroupWithMembers where
  group : Group
  members : HashMap String MemberWithAssignment
  deriving DecidableEq

structure Lag where
  offset : ℕ
  offsetTimestamp : Int
  timestamp : Int
  offsetLag : ℕ
  timeLag : Int
  deriving DecidableEq, Repr

/-- `Lag::is_stale`, with `Utc::now()` read as `now`. -/
def Lag.isStale (l : Lag) (now : Int) : Bool := now - l.offsetTimestamp > lagStaleAfter

structure LagWithOwner where
  lag : Option Lag
  owner : Option Member
  deriving DecidableEq, Repr

structure GroupWithLag where
  group : Group
  lagByTopicPartition : HashMap TopicPartition LagWithOwner

/-- The map behind `LagRegister::lag_by_group`. -/
abbrev LagByGroup := HashMap String GroupWithLag

/-- The entry of group `g` for `tp`, if there is one. -/
def LagByGroup.entryAt (r : LagByGroup) (g : String) (tp : TopicPartition) :
    Option LagWithOwner :=
  (r.get? g).bind fun gwl => gwl.lagByTopicPartition.get? tp

/-- The `Lag` held for group `g` and `tp`, if there is one. -/
def LagByGroup.lagAt (r : LagByGroup) (g : String) (tp : TopicPartition) : Option Lag :=
  (r.entryAt g tp).bind LagWithOwner.lag

structure OffsetCommit where
  group : String
  topic : String
  partition : Int
  offset : Int
  commitTimestamp : Int
  deriving DecidableEq, Repr

/-- The `TopicPartition` an `OffsetCommit` is about. -/
def OffsetCommit.topicPartition (oc : OffsetCommit) : TopicPartition :=
  ⟨oc.topic, asU32 oc.partition⟩

structure TopicPartitions where
  topic : String
  partitions : List Int
  deriving DecidableEq, Repr

/-- Modelled from the spec: `TopicPartition::vec_from`, the partitions of one topic. -/
def TopicPartition.vecFrom (tps : TopicPartitions) : List TopicPartition :=
  tps.partitions.map fun p => ⟨tps.topic, asU32 p⟩

structure ConsumerProtocolAssignment where
  assignedTopicPartitions : List TopicPartitions
  deriving DecidableEq, Repr

structure ConsumerProtocolSubscription where
  ownedTopicPartitions : List TopicPartitions
  deriving DecidableEq, Repr

structure MemberMetadata where
  id : String
  clientId : String
  clientHost : String
  subscription : ConsumerProtocolSubscription
  assignment : ConsumerProtocolAssignment
  deriving DecidableEq, Repr

structure GroupMetadata where
  group : String
  members : List MemberMetadata
  deriving DecidableEq, Repr

inductive KonsumerOffsetsData
  | offsetCommit (oc : OffsetCommit)
  | groupMetadata (gm : GroupMetadata)
  deriving DecidableEq, Repr

/-- The `{offset, at}` that `get_latest_tracked_offset` returns. -/
structure PartitionOffset where
  offset : ℕ
  «at» : Int
  deriving DecidableEq, Repr

/-- Modelled from the spec (not in the sources): three queries, an `Err` being `none`. -/
structure PartitionOffsetsRegister where
  getLatestTrackedOffset : TopicPartition → Option PartitionOffset
  estimateOffsetLag : TopicPartition → ℕ → Option ℕ
  estimateTimeLag : TopicPartition → ℕ → Int → Option Int

end ConsumerLag
