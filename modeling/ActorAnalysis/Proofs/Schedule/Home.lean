import ActorAnalysis.Proofs.Schedule.Start
import Mathlib.Data.List.Nodup

/-! Where threads are at home. The threads of a program stand in the order of its scripts and of
their entries: the k-th thread of a script belongs to the k-th entry. -/
namespace ActorAnalysis

theorem find?_of_nodup {α κ : Type} [DecidableEq κ] {key : α → κ} {l : List α}
    (nodup : (l.map key).Nodup) {a : α} (member : a ∈ l) :
    l.find? (fun x => decide (key x = key a)) = some a := by
  cases found : l.find? (fun x => decide (key x = key a)) with
  | none => simpa using List.find?_eq_none.mp found a member
  | some b =>
    have same : key b = key a := by simpa using List.find?_some found
    rw [List.inj_on_of_nodup_map nodup (List.mem_of_find?_eq_some found) member same]

theorem getElem?_filter_countP {α : Type} (keep : α → Bool) {l : List α} {i : Nat} {a : α}
    (found : l[i]? = some a) (kept : keep a = true) :
    (l.filter keep)[(l.take i).countP keep]? = some a := by
  induction l generalizing i with
  | nil => simp at found
  | cons b rest ih =>
    cases i with
    | zero =>
      obtain rfl : b = a := by simpa using found
      simp [kept]
    | succ i =>
      have later := ih (by simpa using found)
      by_cases first : keep b = true
      · simpa [first] using later
      · simpa [first] using later

theorem getElem?_of_map_eq {α β κ : Type} {f : α → κ} {g : β → κ} {l : List α} {l' : List β}
    (same : l.map f = l'.map g) {i : Nat} {a : α} (found : l[i]? = some a) :
    ∃ b, l'[i]? = some b ∧ g b = f a := by
  have at_ := congrArg (fun l => l[i]?) same
  simp only [List.getElem?_map, found, Option.map_some] at at_
  exact Option.map_eq_some_iff.mp at_.symm

def scriptRef (e : String × Script) : ScriptRef := ⟨e.1, e.2.id⟩

def Script.homes (script : Script) (actor : String) : List (ScriptRef × Location) :=
  script.body.entry.toList.map (fun entry => (⟨actor, script.id⟩, entry))

theorem Script.filter_homes (script : Script) (actor : String) (ref : ScriptRef) :
    (script.homes actor).filter (fun h => decide (h.1 = ref)) =
      if scriptRef (actor, script) = ref then script.homes actor else [] := by
  have own : ∀ h ∈ script.homes actor, h.1 = scriptRef (actor, script) := by
    intro h hh
    obtain ⟨entry, -, rfl⟩ := List.mem_map.mp hh
    rfl
  split
  · rename_i same
    exact List.filter_eq_self.mpr fun h hh => decide_eq_true ((own h hh).trans same)
  · rename_i other
    refine List.filter_eq_nil_iff.mpr fun h hh => ?_
    rw [own h hh]
    simpa using other

/-- Among the homes of distinct scripts, those of one script stand together. -/
theorem filter_homes {l : List (String × Script)} (distinct : (l.map scriptRef).Nodup)
    {e : String × Script} (listed : e ∈ l) :
    (l.flatMap (fun x => x.2.homes x.1)).filter (fun h => decide (h.1 = scriptRef e)) =
      e.2.homes e.1 := by
  induction l with
  | nil => exact absurd listed List.not_mem_nil
  | cons x rest ih =>
    obtain ⟨first, distinct⟩ := List.nodup_cons.mp distinct
    rw [List.flatMap_cons, List.filter_append, Script.filter_homes]
    rcases List.mem_cons.mp listed with rfl | listed
    · have others : (rest.flatMap (fun x => x.2.homes x.1)).filter
          (fun h => decide (h.1 = scriptRef e)) = [] := by
        rw [List.filter_flatMap]
        refine List.flatMap_eq_nil_iff.mpr fun x hx => ?_
        have other : scriptRef x ≠ scriptRef e := fun same => first (same ▸ List.mem_map_of_mem hx)
        rw [Script.filter_homes, if_neg other]
      rw [if_pos rfl, others, List.append_nil]
    · have other : scriptRef x ≠ scriptRef e := fun same =>
        first (same ▸ List.mem_map_of_mem listed)
      rw [if_neg other, ih distinct listed]
      rfl

namespace Program

/-- Actors have distinct names, and the scripts of each actor distinct ids. -/
structure Unambiguous (p : Program) : Prop where
  names : (p.actors.map Actor.name).Nodup
  scripts : ∀ a ∈ p.actors, (a.scripts.map Script.id).Nodup

/-- The script and the entry that each thread belongs to. -/
def homes (p : Program) : List (ScriptRef × Location) :=
  p.scripts.flatMap (fun e => e.2.homes e.1)

/-- The entry that the thread at `index` belongs to, counting the threads of its script. -/
def entryOf? (p : Program) (threads : List Thread) (index : Nat) : Option Location :=
  threads[index]?.bind fun t => (p.script? t.actor t.script).bind fun script =>
    script.body.entry.toList[(threads.take index).countP (fun u => decide (u.ref = t.ref))]?

theorem mem_scripts {p : Program} {e : String × Script} :
    e ∈ p.scripts ↔ ∃ a ∈ p.actors, a.name = e.1 ∧ e.2 ∈ a.scripts := by
  obtain ⟨actor, script⟩ := e
  simp only [scripts, Actor.named, List.mem_flatMap, List.mem_map, Prod.mk.injEq]
  constructor
  · rintro ⟨a, ha, s, hs, rfl, rfl⟩
    exact ⟨a, ha, rfl, hs⟩
  · rintro ⟨a, ha, rfl, hs⟩
    exact ⟨a, ha, script, hs, rfl, rfl⟩

theorem scriptAt_eq_ok {p : Program} {ref : ScriptRef} {script : Script} :
    p.scriptAt ref = .ok script ↔ p.script? ref.actor ref.script = some script := by
  unfold scriptAt
  split <;> simp_all

theorem mem_of_scriptAt {p : Program} {ref : ScriptRef} {script : Script}
    (found : p.scriptAt ref = .ok script) : ∃ e ∈ p.scripts, scriptRef e = ref ∧ e.2 = script := by
  obtain ⟨a, named, owned⟩ := Option.bind_eq_some_iff.mp (scriptAt_eq_ok.mp found)
  have name : a.name = ref.actor := by simpa using List.find?_some named
  have id : script.id = ref.script := by simpa using List.find?_some owned
  refine ⟨(ref.actor, script), mem_scripts.mpr ⟨a, List.mem_of_find?_eq_some named, name,
    List.mem_of_find?_eq_some owned⟩, ?_, rfl⟩
  simp only [scriptRef, id]

theorem mem_homes {p : Program} {ref : ScriptRef} {home : Location}
    (member : (ref, home) ∈ p.homes) :
    ∃ e ∈ p.scripts, ref = scriptRef e ∧ home ∈ e.2.body.entry := by
  obtain ⟨e, he, listed⟩ := List.mem_flatMap.mp member
  obtain ⟨entry, hentry, same⟩ := List.mem_map.mp listed
  obtain ⟨rfl, rfl⟩ := Prod.mk.inj same
  exact ⟨e, he, rfl, hentry⟩

theorem scriptAt_succeeds {p : Program} (names : (p.actors.map Actor.name).Nodup)
    {e : String × Script} (member : e ∈ p.scripts) :
    ∃ script, p.scriptAt (scriptRef e) = .ok script := by
  obtain ⟨a, ha, named, owned⟩ := mem_scripts.mp member
  have found : p.actor? e.1 = some a := named ▸ find?_of_nodup names ha
  obtain ⟨script, known⟩ : ∃ script, a.script? e.2.id = some script :=
    Option.isSome_iff_exists.mp (List.find?_isSome.mpr ⟨e.2, owned, by simp⟩)
  refine ⟨script, ?_⟩
  simp only [scriptAt, script?, scriptRef, found, Option.bind_some, known]

/-- The home of a thread, if the threads stand as those of the program do. -/
theorem home_of_refs {p : Program} {threads : List Thread}
    (refs : threads.map Thread.ref = p.homes.map Prod.fst) {j : Nat} {a : Thread}
    (found : threads[j]? = some a) : ∃ home, p.homes[j]? = some (a.ref, home) := by
  obtain ⟨h, at_, ref⟩ := getElem?_of_map_eq refs found
  exact ⟨h.2, by rw [at_, ← ref]⟩

section Unambiguous

variable {p : Program} (unambiguous : p.Unambiguous)
include unambiguous

theorem Unambiguous.script? {e : String × Script} (member : e ∈ p.scripts) :
    p.script? e.1 e.2.id = some e.2 := by
  obtain ⟨a, ha, named, owned⟩ := mem_scripts.mp member
  have found : p.actor? e.1 = some a := named ▸ find?_of_nodup unambiguous.names ha
  have known : a.script? e.2.id = some e.2 := find?_of_nodup (unambiguous.scripts a ha) owned
  simp only [Program.script?, found, Option.bind_some, known]

theorem Unambiguous.scriptAt {e : String × Script} (member : e ∈ p.scripts) :
    p.scriptAt (scriptRef e) = .ok e.2 := by
  simp only [Program.scriptAt, scriptRef, unambiguous.script? member]

theorem Unambiguous.refs : (p.scripts.map scriptRef).Nodup := by
  unfold Program.scripts
  rw [List.map_flatMap, List.nodup_flatMap]
  constructor
  · intro a ha
    unfold Actor.named
    rw [List.map_map]
    refine List.Nodup.of_map ScriptRef.script ?_
    rw [List.map_map]
    exact unambiguous.scripts a ha
  · refine (List.pairwise_map.mp unambiguous.names).imp fun {a b} apart => ?_
    intro ref ha hb
    obtain ⟨e, he, rfl⟩ := List.mem_map.mp ha
    obtain ⟨e', he', same⟩ := List.mem_map.mp hb
    obtain ⟨s, -, rfl⟩ := List.mem_map.mp he
    obtain ⟨s', -, rfl⟩ := List.mem_map.mp he'
    exact apart (congrArg ScriptRef.actor same).symm

theorem Unambiguous.entries {e : String × Script} (member : e ∈ p.scripts) :
    (p.homes.filter (fun h => decide (h.1 = scriptRef e))).map Prod.snd =
      e.2.body.entry.toList := by
  unfold homes
  rw [filter_homes unambiguous.refs member]
  simp [Script.homes, Function.comp_def]

/-- The k-th thread of a script is at home at its k-th entry. -/
theorem Unambiguous.entryOf? {threads : List Thread}
    (refs : threads.map Thread.ref = p.homes.map Prod.fst) {index : Nat} {t : Thread}
    {home : Location} (found : threads[index]? = some t)
    (at_ : p.homes[index]? = some (t.ref, home)) :
    p.entryOf? threads index = some home := by
  obtain ⟨e, he, ref, -⟩ := mem_homes (List.mem_of_getElem? at_)
  have script : p.script? t.actor t.script = some e.2 := by
    have known := unambiguous.script? he
    rwa [show e.1 = t.actor from (congrArg ScriptRef.actor ref).symm,
      show e.2.id = t.script from (congrArg ScriptRef.script ref).symm] at known
  have count : (threads.take index).countP (fun u => decide (u.ref = t.ref)) =
      (p.homes.take index).countP (fun h => decide (h.1 = t.ref)) := by
    have earlier : (threads.take index).map Thread.ref = (p.homes.take index).map Prod.fst := by
      rw [List.map_take, List.map_take, refs]
    have counted := congrArg (List.countP (fun ref => decide (ref = t.ref))) earlier
    rw [List.countP_map, List.countP_map] at counted
    exact counted
  have place := getElem?_filter_countP (fun h => decide (h.1 = t.ref)) at_ (by simp)
  have entries := unambiguous.entries he
  rw [← ref] at entries
  simp only [Program.entryOf?, found, Option.bind_some, script, count, ← entries,
    List.getElem?_map, place, Option.map_some]

end Unambiguous
end Program

theorem homes_threadsFrom (first : ThreadId) (l : List (String × Script)) :
    (threadsFrom first l).map (fun t => (t.ref, t.location)) =
      l.flatMap (fun e => e.2.homes e.1) := by
  induction l generalizing first with
  | nil => rfl
  | cons e rest ih =>
    obtain ⟨actor, script⟩ := e
    have own : (script.threads actor first).map (fun t => (t.ref, t.location)) =
        script.homes actor := by
      unfold Script.threads Script.homes
      rw [List.map_map]
      refine List.map_congr_left fun entry _ => ?_
      simp only [Function.comp_apply]
      split <;> rfl
    rw [threadsFrom, List.map_append, own, ih, List.flatMap_cons]

end ActorAnalysis
