import ActorAnalysis.Schedule.Thread

namespace ActorAnalysis

structure ScriptRef where
  actor : String
  script : Nat
deriving DecidableEq

namespace ScriptRef

instance : LT ScriptRef :=
  ⟨fun a b => a.actor < b.actor ∨ a.actor = b.actor ∧ a.script < b.script⟩

instance : DecidableLT ScriptRef := fun a b =>
  inferInstanceAs (Decidable (a.actor < b.actor ∨ a.actor = b.actor ∧ a.script < b.script))

instance : TotalLT ScriptRef where
  irrefl a h := by
    rcases h with h | h
    · exact TotalLT.irrefl _ h
    · exact TotalLT.irrefl _ h.2
  trans {a b c} hab hbc := by
    rcases hab with hab | ⟨sab, hab⟩ <;> rcases hbc with hbc | ⟨sbc, hbc⟩
    · exact .inl (TotalLT.trans hab hbc)
    · exact .inl (sbc ▸ hab)
    · exact .inl (sab ▸ hbc)
    · exact .inr ⟨sab.trans sbc, TotalLT.trans hab hbc⟩
  connected {a b} hab hba := by
    have actors : a.actor = b.actor :=
      TotalLT.connected (fun h => hab (.inl h)) (fun h => hba (.inl h))
    have scripts : a.script = b.script :=
      TotalLT.connected (fun h => hab (.inr ⟨actors, h⟩)) (fun h => hba (.inr ⟨actors.symm, h⟩))
    cases a
    cases b
    simp_all

end ScriptRef

def Thread.ref (t : Thread) : ScriptRef := ⟨t.actor, t.script⟩

def Program.scriptAt (p : Program) (ref : ScriptRef) : Except Error Script :=
  match p.script? ref.actor ref.script with
  | some script => .ok script
  | none => .error (.missingScript ref.actor ref.script)

def instances (threads : List Thread) : SortedMap ScriptRef (List Nat) :=
  threads.zipIdx.foldl
    (fun m (t, index) => m.insert t.ref ((m.get? t.ref).getD [] ++ [index])) ∅

structure Restarted where
  threads : List Thread
  ids : SortedSet ThreadId

/-- Places a thread at each of the listed indices, one for each entry, while both last. -/
def enterAt (id : ThreadId) (ref : ScriptRef) (indices : List Nat) (entries : List Location)
    (threads : List Thread) : List Thread :=
  (indices.zip entries).foldl
    (fun ts (index, entry) => ts.set index (.start id ref.actor ref.script entry)) threads

/-- Restarts the instance at `indices` if `message` triggers it and all its threads are idle. The
instance of the sender is left alone. -/
def restartInstance (p : Program) (message : String) (sender : Nat) (r : Restarted)
    (ref : ScriptRef) (indices : List Nat) : Alloc Restarted :=
  if sender ∈ indices then pure r
  else do
    let script ← p.scriptAt ref
    if script.event = .message message ∧
        indices.all (fun i => r.threads[i]?.all Thread.isIdle) = true then do
      let id ← Alloc.freshThread
      pure ⟨enterAt id ref indices script.body.entry.toList r.threads, r.ids.insert id⟩
    else pure r

/-- Restarts, in the order of their scripts, all idle instances that `message` triggers. -/
def restartReceivers (p : Program) (message : String) (sender : Nat) (threads : List Thread) :
    Alloc Restarted :=
  (instances threads).entries.foldlM
    (fun r (ref, indices) => restartInstance p message sender r ref indices) ⟨threads, ∅⟩

end ActorAnalysis
