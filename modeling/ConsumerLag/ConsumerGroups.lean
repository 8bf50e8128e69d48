import Mathlib
import ConsumerLag.HashMap

/-!
# The consumer groups snapshot

`ConsumerGroupsEmitter` turns the group list of `fetch_group_list` into a `ConsumerGroups`
(`From<GroupList>` in `consumer_groups/emitter.rs`): the groups by name, each with its members
by id. Both maps are filled by `insert` in the order of the list, so that a later group of the
same name, or a later member of the same id, replaces an earlier one.
-/
namespace ConsumerLag

namespace ConsumerGroups

/-- What `fetch_group_list` reports of a member, as far as `from` reads it. -/
structure GroupMemberInfo where
  id : String
  clientId : String
  clientHost : String
  deriving DecidableEq, Repr

/-- What `fetch_group_list` reports of a group, as far as `from` reads it. -/
structure GroupInfo where
  name : String
  members : List GroupMemberInfo
  state : String
  protocol : String
  protocolType : String
  deriving DecidableEq, Repr

/-- `consumer_groups::Member`. -/
structure Member where
  id : String
  clientId : String
  clientHost : String
  deriving DecidableEq, Repr

/-- `consumer_groups::Group`. -/
structure Group where
  name : String
  members : HashMap String Member
  state : String
  protocol : String
  protocolType : String

/-- The `Member` that `from` builds for `m`. -/
def memberOf (m : GroupMemberInfo) : Member := ⟨m.id, m.clientId, m.clientHost⟩

/-- The loop that fills `res_members`. -/
def resMembers (g : GroupInfo) : HashMap String Member :=
  g.members.foldl (fun res m => res.insert m.id (memberOf m)) HashMap.empty

/-- The `Group` that `from` builds for `g`. -/
def groupOf (g : GroupInfo) : Group :=
  ⟨g.name, resMembers g, g.state, g.protocol, g.protocolType⟩

end ConsumerGroups

/-- `consumer_groups::ConsumerGroups`. -/
structure ConsumerGroups where
  groups : HashMap String ConsumerGroups.Group

namespace ConsumerGroups

/-- `From<GroupList> for ConsumerGroups`. -/
def fromGroupList (gl : List GroupInfo) : ConsumerGroups :=
  ⟨gl.foldl (fun res g => res.insert g.name (groupOf g)) HashMap.empty⟩

/-- Groups are keyed by name and members by id, the last listing of a name or an id winning. -/
theorem fromGroupList_keyed (gl : List GroupInfo) :
    (∀ n, (fromGroupList gl).groups.get? n =
      (gl.reverse.find? fun g => g.name = n).map groupOf) ∧
    ∀ n grp, (fromGroupList gl).groups.get? n = some grp →
      grp.name = n ∧ ∀ id m, grp.members.get? id = some m → m.id = id := by
  refine ⟨HashMap.get?_foldl_insert gl GroupInfo.name groupOf, fun n grp h => ?_⟩
  obtain ⟨g, -, hn, rfl⟩ := HashMap.key_of_get?_foldl_insert h
  refine ⟨hn, fun id m hm => ?_⟩
  obtain ⟨m', -, hid, rfl⟩ := HashMap.key_of_get?_foldl_insert hm
  exact hid

end ConsumerGroups

end ConsumerLag
