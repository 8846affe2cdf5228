import Wasm.Instance.Group
import Wasm.Proofs.Cache.Course

/-!
# Sharing a cache

The lives of instances that share a cache are those they have on their own, and
what the cache holds are the functions that frames were pushed for. Groups, in
which one operation comes to its end before the next begins, are a case of
instances that take turns.
-/

namespace Wasm

variable {σ : Type}

-- ---------------------------------------------------------------------------
-- Groups
-- ---------------------------------------------------------------------------

/-- The groups of instances of a module, whose hosts keep no state, as they are
    met between operations that came to their end, with the answers that each
    member gave. -/
inductive Group.Reached (m : Module) :
    Group Unit → (Nat → List (Except Fault Answer)) → Prop where
  | new : Reached m (.ofModule m ()) fun _ => []
  | instantiate {g : Group Unit} {answers : Nat → List (Except Fault Answer)}
      (h : Reached m g answers) (imports : Imports Unit) (config : Config) (budget : Nat)
      (hend : (g.instantiate imports config budget).1 ≠ .error (.start .unfinished)) :
      Reached m (g.instantiate imports config budget).2 answers
  | run {g g' : Group Unit} {answers : Nat → List (Except Fault Answer)} (h : Reached m g answers)
      {k : Nat} {r : Request} {budget : Nat} {result : Except Fault Answer}
      (hrun : g.run k (r.run · budget) = some (result, g')) (hend : result ≠ .error .unfinished) :
      Reached m g' (Function.update answers k (answers k ++ [result]))

/-- The stage is that of a member of a group which gave these answers. -/
inductive Stage.Shows :
    Stage Unit → Option (Option (Instance Unit)) → List (Except Fault Answer) → Prop where
  | absent : Shows .absent none []
  | rejected (e : Link.Error) : Shows (.rejected e ()) (some none) []
  | idle (opening : Sight Unit) (past : List (Observation Unit)) (i : Instance Unit) :
      Shows (.idle opening past { i with machine := i.machine.uncached }) (some (some i))
        (past.map (·.result))

/-- The crew is where the group is. -/
structure Crew.Holds (crew : Crew Unit) (g : Group Unit)
    (answers : Nat → List (Except Fault Answer)) : Prop where
  cache : crew.cache = g.shared.cache
  members : ∀ k, (crew.stage k).Shows g.members[k]? (answers k)

namespace Group

variable {m : Module} {g g' : Group Unit} {answers : Nat → List (Except Fault Answer)}
  {crew : Crew Unit}

/-- It is enough to look at the member that the turns are of. -/
theorem holds_of_own (h : crew.Holds g answers) {k : Nat} (acts : List (Act Unit))
    {answers' : Nat → List (Except Fault Answer)} {stage : Stage Unit}
    (hown : Stage.perform m acts (crew.stage k, crew.cache) = (stage, g'.shared.cache))
    (hstage : stage.Shows g'.members[k]? (answers' k))
    (hother : ∀ j, j ≠ k → g'.members[j]? = g.members[j]? ∧ answers' j = answers j) :
    ((acts.map (k, ·)).foldl (Crew.turn m) crew).Holds g' answers' := by
  obtain ⟨hown', hother'⟩ := crew.foldl_own m k acts
  rw [hown] at hown'
  obtain ⟨rfl, hcache⟩ := Prod.mk.inj hown'
  refine ⟨hcache, fun j => ?_⟩
  by_cases hj : j = k
  · subst hj
    exact hstage
  · rw [hother' j hj, (hother j hj).1, (hother j hj).2]
    exact h.members j

theorem instantiate_plays (h : crew.Holds g answers) (hcrew : crew.Sound g.module)
    (imports : Imports Unit) (config : Config) (budget : Nat)
    (hend : (g.instantiate imports config budget).1 ≠ .error (.start .unfinished)) :
    ∃ turns : List (Nat × Act Unit), (turns.foldl (Crew.turn g.module) crew).Holds
      (g.instantiate imports config budget).2 answers := by
  let acts : List (Act Unit) := .create ⟨imports, config, ()⟩ :: List.replicate budget .advance
  have hcreate : (∀ shared, g.module.instantiate imports config budget g.shared ≠
        (.error (.start .unfinished), shared)) →
      Stage.perform g.module acts (.absent, crew.cache) =
        Stage.created (g.module.instantiate imports config budget g.shared) := by
    have hshared : g.shared = ⟨crew.cache, ()⟩ := by rw [h.cache]
    rw [hshared]
    exact Stage.perform_create hcrew.cache ⟨imports, config, ()⟩ (Nat.le_refl budget)
  -- The new member takes the place behind the last one.
  obtain ⟨habsent, hnone⟩ : crew.stage g.members.size = .absent ∧ answers g.members.size = [] := by
    have hlast := h.members g.members.size
    rw [Array.getElem?_size] at hlast
    generalize crew.stage g.members.size = stage, answers g.members.size = given at hlast
    cases hlast
    exact ⟨rfl, rfl⟩
  rw [← habsent] at hcreate
  have hother (member : Option (Instance Unit)) (j : Nat) (hj : j ≠ g.members.size) :
      (g.members.push member)[j]? = g.members[j]? := by
    rw [Array.getElem?_push, if_neg hj]
  refine ⟨acts.map (g.members.size, ·), ?_⟩
  unfold Group.instantiate at hend ⊢
  rcases hresult : g.module.instantiate imports config budget g.shared with ⟨e | i, shared⟩
  · rw [hresult] at hend hcreate
    have hended (shared' : Shared Unit) : ((.error e : Except Link.Error (Instance Unit)), shared) ≠
        (.error (.start .unfinished), shared') := by
      rintro ⟨⟩
      exact hend rfl
    refine holds_of_own h acts (hcreate hended) ?_ fun j hj => ⟨hother none j hj, rfl⟩
    rw [hnone, Array.getElem?_push_size]
    exact .rejected e
  · rw [hresult] at hcreate
    refine holds_of_own h acts (hcreate nofun) ?_ fun j hj => ⟨hother (some i) j hj, rfl⟩
    rw [hnone, Array.getElem?_push_size]
    exact .idle i.machine.sight [] i

theorem run_eq_some {k : Nat} {r : Request} {budget : Nat} {result : Except Fault Answer}
    (h : g.run k (r.run · budget) = some (result, g')) :
    ∃ i : Instance Unit, g.members[k]? = some (some i) ∧
      let ran := r.run i.env budget { i.machine with toShared := g.shared }
      result = (Observation.ofResult ran).result ∧
        g' = { g with
          shared := (finalState ran).toShared
          members := g.members.setIfInBounds k (some { i with machine := finalState ran }) } := by
  obtain ⟨i, hi, h⟩ := Option.bind_eq_some_iff.mp h
  refine ⟨i, Option.join_eq_some_iff.mp hi, ?_⟩
  simp only [Instance.run] at h
  cases hran : r.run i.env budget { i.machine with toShared := g.shared } with
  | ok answer n | error e n =>
    rw [hran] at h
    cases h
    exact ⟨rfl, rfl⟩

theorem run_plays (h : crew.Holds g answers) (hcrew : crew.Sound g.module) {k : Nat} {r : Request}
    {budget : Nat} {result : Except Fault Answer}
    (hrun : g.run k (r.run · budget) = some (result, g')) (hend : result ≠ .error .unfinished) :
    ∃ turns : List (Nat × Act Unit), (turns.foldl (Crew.turn g.module) crew).Holds g'
      (Function.update answers k (answers k ++ [result])) := by
  obtain ⟨i, hi, rfl, rfl⟩ := run_eq_some hrun
  let m : Machine Unit := { i.machine with toShared := g.shared }
  obtain ⟨opening, past, hstage, hanswers⟩ : ∃ opening past, crew.stage k =
      .idle opening past { i with machine := i.machine.uncached } ∧
        answers k = past.map (·.result) := by
    have hshows := h.members k
    rw [hi] at hshows
    generalize crew.stage k = stage, answers k = given at hshows
    cases hshows
    exact ⟨_, _, rfl, rfl⟩
  have hmodule : i.env.module = g.module := by
    have htame := hcrew.stages k
    rw [hstage] at htame
    cases htame with
    | idle hmodule hrest => exact hmodule
  have hm : m.cache.Coherent i.env.module := by
    have hcache := hcrew.cache
    rw [h.cache, ← hmodule] at hcache
    exact hcache
  have hfinished : Run.Finished (r.run i.env budget m) := by
    intro n hn
    apply hend
    rw [hn]
    rfl
  have hperform := Stage.perform_request hm hfinished (Nat.le_refl budget) opening past
  have hstart : (crew.stage k, crew.cache) =
      (.idle opening past { env := i.env, machine := m.uncached }, m.cache) := by
    rw [hstage, h.cache]
    rfl
  rw [hmodule, ← hstart] at hperform
  refine ⟨_, holds_of_own h _ hperform ?_ ?_⟩
  · have hlt : k < g.members.size := (Array.getElem?_eq_some_iff.mp hi).1
    have hshows := Stage.Shows.idle opening (past ++ [.ofResult (r.run i.env budget m)])
      { i with machine := finalState (r.run i.env budget m) }
    rw [List.map_append, ← hanswers] at hshows
    rw [Function.update_self, Array.getElem?_setIfInBounds_self_of_lt hlt]
    exact hshows
  · intro j hj
    exact ⟨Array.getElem?_setIfInBounds_ne (Ne.symm hj), Function.update_of_ne hj _ _⟩

theorem Reached.plays (h : Reached m g answers) :
    g.module = m ∧ ∃ turns, (Crew.play m turns).Holds g answers := by
  induction h with
  | new =>
    refine ⟨rfl, [], rfl, fun k => ?_⟩
    exact .absent
  | @instantiate g answers h imports config budget hend ih =>
    obtain ⟨rfl, turns, hholds⟩ := ih
    obtain ⟨more, hmore⟩ := instantiate_plays hholds (Crew.sound_play g.module turns) imports config
      budget hend
    refine ⟨?_, turns ++ more, ?_⟩
    · unfold Group.instantiate
      split <;> rfl
    · rw [Crew.play_append]
      exact hmore
  | @run g g' answers h k r budget result hrun hend ih =>
    obtain ⟨rfl, turns, hholds⟩ := ih
    obtain ⟨more, hmore⟩ := run_plays hholds (Crew.sound_play g.module turns) hrun hend
    refine ⟨?_, turns ++ more, ?_⟩
    · obtain ⟨i, _, _, rfl⟩ := run_eq_some hrun
      rfl
    · rw [Crew.play_append]
      exact hmore

end Group

-- ---------------------------------------------------------------------------
-- Crews
-- ---------------------------------------------------------------------------

/-- However the instances of a module take turns, with one cache among them:
    a slot of the cache that is filled holds what is prepared from its function,
    and does so ever after. Each instance is where it would be if it were alone,
    and one that was given steps enough for what it was asked has lived through
    a session of its own. And the cache counts the functions of the module that
    frames were pushed for by instances that run them as prepared. All this is
    true of groups, which are where instances that take turns can get to. -/
theorem Module.cache_shared (m : Module) :
    (∀ turns : List (Nat × Act σ),
      let crew := Crew.play m turns
      (∀ func ops, crew.cache.get? func = some ops →
        ops = m.prepare func ∧
          ∀ more, (Crew.play m (turns ++ more)).cache.get? func = some ops) ∧
      (∀ k, crew.stage k = (Crew.play m (turns.filter (·.1 = k))).stage k) ∧
      (∀ k setup steps requests budget, acts k turns = Act.course setup steps requests →
        budget ≤ steps → (∀ p ∈ requests, budget ≤ p.2) →
        let session := setup.session m (requests.map (·.1)) budget
        session.Finished → (crew.stage k).session? = some session) ∧
      crew.cache.count = (List.range m.functions.size).countP fun func =>
        crew.pushed.contains (true, func)) ∧
    ∀ g answers, Group.Reached m g answers → ∃ turns, (Crew.play m turns).Holds g answers := by
  refine ⟨fun turns => ⟨?_, ?_, ?_, Crew.count_play m turns⟩, fun g answers h => h.plays.2⟩
  · intro func ops hops
    have hprepared := (Crew.sound_play m turns).cache func ops hops
    exact ⟨hprepared, fun more => Crew.get?_play_append m turns more hops⟩
  · intro k
    have hacts : acts k (turns.filter (·.1 = k)) = acts k turns := by
      rw [acts, acts, List.filter_filter]
      simp only [Bool.and_self]
    rw [Crew.stage_play, Crew.stage_play, hacts]
  · intro k setup steps requests budget hacts hsteps hrequests session h
    rw [Crew.stage_play, hacts]
    exact Stage.session?_course hsteps hrequests h

/-- Two instances count down by turns. Only the one that prepares its functions
    has put one into the cache. -/
theorem countdown_cache_shared :
    let setup (compile : Bool) : Setup Nat := { imports := ticks, config := { compile }, host := 0 }
    let request : Request := .invoke "run" [.i32 2]
    let steps : List (Nat × Act Nat) := (List.replicate 20 [(0, .advance), (1, .advance)]).flatten
    let turns := (0, .create (setup true)) :: (1, .create (setup false)) :: steps ++
      (0, .request request) :: (1, .request request) :: steps
    let crew := Crew.play countdown turns
    crew.cache.count = 1 ∧
      (crew.stage 0).session? = some ((setup true).session countdown [request] 20) ∧
      (crew.stage 1).session? = some ((setup false).session countdown [request] 20) := by
  intro setup request steps turns crew
  have hfinished (compile : Bool) : ((setup compile).session countdown [request] 20).Finished := by
    have hanswer : (match (setup compile).session countdown [request] 20 with
        | .opened _ observations => observations.map (·.result.toOption)
        | .rejected _ _ => []) = [some (.values [])] := by
      cases compile <;> decide +kernel
    cases hsession : (setup compile).session countdown [request] 20 with
    | rejected e host =>
      rw [hsession] at hanswer
      cases hanswer
    | opened sight observations =>
      rw [hsession] at hanswer
      intro o ho herror
      have hsome : o.result.toOption ∈ [some (Answer.values [])] :=
        hanswer ▸ List.mem_map_of_mem ho
      rw [herror] at hsome
      cases List.mem_singleton.mp hsome
  obtain ⟨_, _, hsession, hcount⟩ := (Module.cache_shared countdown).1 turns
  refine ⟨?_, ?_, ?_⟩
  · rw [hcount]
    decide +kernel
  · have hacts : acts 0 turns = Act.course (setup true) 20 [(request, 20)] := rfl
    exact hsession 0 _ _ _ 20 hacts (Nat.le_refl _) (by simp) (hfinished true)
  · have hacts : acts 1 turns = Act.course (setup false) 20 [(request, 20)] := rfl
    exact hsession 1 _ _ _ 20 hacts (Nat.le_refl _) (by simp) (hfinished false)

end Wasm
