import Confinement.Proofs.Manager.Leaves

/-!
# Forks

Before a fork the leaves of a tree of stacks are asked to agree, from left to right, and after it
they are told that it is over, from right to left. If one refuses, those that have agreed are told
at once, each stack first telling its own members. So every agreement has one end, and agreements
and ends are nested like brackets, however the leaves are grouped into stacks.
-/

namespace Confinement

namespace Engine

/-- The engine after a call to the driver of each of several managers. -/
def noteEach (s : Engine) (request : Request) (ids : List ManagerId) : Engine :=
  { s with trace := (s.callsTo request ids).reverse ++ s.trace }

variable {s t u : Engine} {id n : ManagerId} {m : Manager} {r : Request}
  {ids ids' : List ManagerId}

theorem noteEach_nil (s : Engine) (r : Request) : s.noteEach r [] = s := rfl

theorem noteEach_cons (hm : s.manager? id = some m) (r : Request) (ids : List ManagerId) :
    s.noteEach r (id :: ids) = (s.record id m.driver r).noteEach r ids := by
  have hcalls : (s.record id m.driver r).callsTo r ids = s.callsTo r ids := rfl
  unfold noteEach
  rw [callsTo_cons hm, hcalls, List.reverse_cons, List.append_assoc]
  rfl

theorem noteEach_append (s : Engine) (r : Request) (ids ids' : List ManagerId) :
    s.noteEach r (ids ++ ids') = (s.noteEach r ids).noteEach r ids' := by
  have hcalls : (s.noteEach r ids).callsTo r ids' = s.callsTo r ids' := rfl
  unfold noteEach at hcalls ⊢
  rw [hcalls, callsTo_append, List.reverse_append, List.append_assoc]

theorem noteEach_congr (h : s.withoutStackCalls = t.withoutStackCalls) (r : Request)
    (ids : List ManagerId) :
    (s.noteEach r ids).withoutStackCalls = (t.noteEach r ids).withoutStackCalls := by
  have hpart : ∀ v : Engine, (v.noteEach r ids).withoutStackCalls =
      (v.withoutStackCalls.noteEach r ids).withoutStackCalls := by
    intro v
    have hcalls : v.withoutStackCalls.callsTo r ids = v.callsTo r ids := rfl
    unfold noteEach
    rw [hcalls]
    simp [withoutStackCalls]
  rw [hpart s, hpart t, h]

theorem log_noteEach (hw : ∀ n ∈ ids, ∃ m, s.manager? n = some m ∧ m.driver.isStack = false)
    (r : Request) : (s.noteEach r ids).log = s.log ++ s.callsTo r ids := by
  induction ids generalizing s with
  | nil => rw [noteEach_nil, callsTo_nil, List.append_nil]
  | cons id ids ih =>
    obtain ⟨m, hm, hd⟩ := hw id (List.mem_cons_self ..)
    have hrest := ih (s := s.record id m.driver r) fun n hn => hw n (List.mem_cons_of_mem id hn)
    rw [noteEach_cons hm, hrest, log_record hd, callsTo_cons hm, List.append_assoc]
    rfl

/-! ### The end of a fork -/

theorem conclude_leaf (hm : s.manager? id = some m) :
    s.conclude id (fun s => s) = s.record id m.driver .postFork := by
  simp only [conclude, hm, ite_self]

theorem postFork_all {ts : List Tree}
    (hts : ∀ t ∈ ts, ∀ u : Engine, u.managers = s.managers → (t.postFork u).withoutStackCalls =
      (u.noteEach .postFork t.leaves.reverse).withoutStackCalls)
    (hu : u.managers = s.managers) :
    (Tree.postForkAll ts u).withoutStackCalls =
      (u.noteEach .postFork (ts.flatMap Tree.leaves).reverse).withoutStackCalls := by
  induction ts with
  | nil =>
    rw [Tree.postForkAll]
    rfl
  | cons t ts ih =>
    have hrest := ih fun t' ht' => hts t' (List.mem_cons_of_mem t ht')
    have hmanagers : (Tree.postForkAll ts u).managers = s.managers :=
      (managers_congr hrest).trans hu
    rw [Tree.postForkAll, hts t (List.mem_cons_self ..) _ hmanagers, noteEach_congr hrest,
      List.flatMap_cons, List.reverse_append, noteEach_append]

/-- The leaves of a tree are told that the fork is over, the last one first. -/
theorem Stacked.postFork {tree : Tree} (h : s.Stacked tree) (u : Engine)
    (hu : u.managers = s.managers) :
    (tree.postFork u).withoutStackCalls =
      (u.noteEach .postFork tree.leaves.reverse).withoutStackCalls := by
  induction h generalizing u with
  | @leaf id m found other =>
    have hm : u.manager? id = some m := by rw [manager?_of_managers hu, found]
    rw [Tree.postFork, conclude_leaf hm, Tree.leaves_leaf, List.reverse_singleton,
      noteEach_cons hm, noteEach_nil]
  | @stack id m members found driver below ih =>
    have hm : u.manager? id = some m := by rw [manager?_of_managers hu, found]
    rw [Tree.postFork, conclude_stack hm driver, Tree.leaves_stack,
      postFork_all (u := u.record id .stack .postFork) ih hu]
    exact noteEach_congr (withoutStackCalls_record_stack rfl ..) ..

/-! ### Agreeing to a fork -/

/-- A leaf has its driver asked, whatever it answers. -/
theorem engine_agree (hm : s.manager? id = some m) :
    (s.agree id none).2 = s.record id m.driver .preFork := by
  rw [agree, manager_eq_ok_iff.mpr hm]
  dsimp only
  split <;> rfl

theorem managers_agree (s : Engine) (id : ManagerId) :
    (s.agree id none).2.managers = s.managers := by
  unfold agree
  split
  · rfl
  · dsimp only
    split <;> rfl

/-- The managers are asked one after the other, calls to stacks apart, and all of them agree. -/
inductive Polled : List ManagerId → Engine → Engine → Prop
  | nil {s t : Engine} (same : s.withoutStackCalls = t.withoutStackCalls) : Polled [] s t
  | cons {id : ManagerId} {ids : List ManagerId} {s here t : Engine}
      (same : s.withoutStackCalls = here.withoutStackCalls)
      (agrees : (here.agree id none).1 = .ok ()) (rest : Polled ids (here.agree id none).2 t) :
      Polled (id :: ids) s t

theorem Polled.of_same (hs : s.withoutStackCalls = t.withoutStackCalls) (h : Polled ids t u) :
    Polled ids s u := by
  cases h with
  | nil same => exact .nil (hs.trans same)
  | cons same agrees rest => exact .cons (hs.trans same) agrees rest

theorem Polled.append (h : Polled ids s t) (h' : Polled ids' t u) : Polled (ids ++ ids') s u := by
  induction h with
  | nil same => exact h'.of_same same
  | cons same agrees rest ih => exact .cons same agrees (ih h')

theorem Polled.of_append (h : Polled (ids ++ ids') s u) :
    ∃ t, Polled ids s t ∧ Polled ids' t u := by
  induction ids generalizing s with
  | nil => exact ⟨s, .nil rfl, h⟩
  | cons id ids ih =>
    cases h with
    | cons same agrees rest =>
      obtain ⟨t, hids, hids'⟩ := ih rest
      exact ⟨t, .cons same agrees hids, hids'⟩

/-- Managers that agree leave nothing but the note that they were asked. -/
theorem Polled.noted (h : Polled ids s t) :
    t.withoutStackCalls = (s.noteEach .preFork ids).withoutStackCalls := by
  induction h with
  | nil same => exact same.symm
  | @cons id ids s here t same agrees rest ih =>
    cases hm : here.manager? id with
    | none => simp [agree, manager, hm] at agrees
    | some m =>
      rw [engine_agree hm, ← noteEach_cons hm] at ih
      exact ih.trans (noteEach_congr same.symm ..)

/-- How managers that are to agree to a fork can bring that to an end. -/
inductive ForkOutcome (ids : List ManagerId) (s : Engine) : Except Error Unit × Engine → Prop
  /-- All of them agree. -/
  | agreed {t : Engine} (polled : Polled ids s t) : ForkOutcome ids s (.ok (), t)
  /-- One refuses, and those before it are told that the fork is over. -/
  | refused {done later : List ManagerId} {n : ManagerId} {here t : Engine} {e : Error}
      (split : ids = done ++ n :: later) (polled : Polled done s here)
      (refuses : (here.agree n none).1 = .error e)
      (undone : t.withoutStackCalls =
        ((here.agree n none).2.noteEach .postFork done.reverse).withoutStackCalls) :
      ForkOutcome ids s (.error e, t)

theorem ForkOutcome.of_same {out : Except Error Unit × Engine}
    (hs : s.withoutStackCalls = t.withoutStackCalls) (h : ForkOutcome ids t out) :
    ForkOutcome ids s out := by
  cases h with
  | agreed polled => exact .agreed (polled.of_same hs)
  | refused split polled refuses undone =>
    exact .refused split (polled.of_same hs) refuses undone

/-- What each member of a stack comes to, all members together come to. -/
theorem forkOutcome_all {ts : List Tree} (hs : ∀ t ∈ ts, s.Stacked t)
    (hts : ∀ t ∈ ts, ∀ u : Engine, u.managers = s.managers →
      ForkOutcome t.leaves u (t.preFork u))
    (hu : u.managers = s.managers) :
    ForkOutcome (ts.flatMap Tree.leaves) u (Tree.preForkAll ts u) := by
  induction ts generalizing u with
  | nil =>
    rw [Tree.preForkAll]
    exact .agreed (.nil rfl)
  | cons t ts ih =>
    have hfirst := hts t (List.mem_cons_self ..) u hu
    rw [List.flatMap_cons, Tree.preForkAll]
    cases hpre : t.preFork u with
    | mk r mid =>
      rw [hpre] at hfirst
      cases hfirst with
      | refused split polled refuses undone =>
        exact .refused (by rw [split, List.append_assoc, List.cons_append]) polled refuses undone
      | agreed polled =>
        have hmid : mid.managers = s.managers :=
          (managers_congr polled.noted).trans hu
        have hrest := ih (fun t' ht' => hs t' (List.mem_cons_of_mem t ht'))
          (fun t' ht' => hts t' (List.mem_cons_of_mem t ht')) hmid
        dsimp only
        cases hall : Tree.preForkAll ts mid with
        | mk r' out =>
          rw [hall] at hrest
          cases hrest with
          | agreed polled' => exact .agreed (polled.append polled')
          | @refused done later n here _ e split polled' refuses undone =>
            have hout : out.managers = s.managers := by
              have hhere : here.managers = mid.managers := (managers_congr polled'.noted :)
              have hlast : out.managers = (here.agree n none).2.managers :=
                (managers_congr undone :)
              exact hlast.trans ((managers_agree here n).trans (hhere.trans hmid))
            refine .refused (by rw [split, List.append_assoc]) (polled.append polled') refuses ?_
            rw [(hs t (List.mem_cons_self ..)).postFork out hout, noteEach_congr undone,
              ← noteEach_append, List.reverse_append]

/-- The leaves of a tree agree, or one refuses and those before it are told. -/
theorem Stacked.forkOutcome {tree : Tree} (h : s.Stacked tree) (u : Engine)
    (hu : u.managers = s.managers) : ForkOutcome tree.leaves u (tree.preFork u) := by
  induction h generalizing u with
  | @leaf id m found other =>
    rw [Tree.leaves_leaf, Tree.preFork]
    cases hr : u.agree id none with
    | mk r out =>
      have hout : (u.agree id none).2.withoutStackCalls = out.withoutStackCalls := by rw [hr]
      cases r with
      | ok _ => exact .agreed (.cons rfl (by rw [hr]) (.nil hout))
      | error e => exact .refused (List.nil_append [id]).symm (.nil rfl) (by rw [hr]) hout.symm
  | @stack id m members found driver below ih =>
    have hm : u.manager? id = some m := by rw [manager?_of_managers hu, found]
    rw [Tree.preFork, agree_stack hm driver, Tree.leaves_stack]
    exact (forkOutcome_all (u := u.record id .stack .preFork) below ih hu).of_same
      (withoutStackCalls_record_stack rfl ..).symm

/-! ### Balance -/

/-- What a leaf says if it is asked to agree after others have been asked. -/
def AnswersAfter (s : Engine) (asked : List ManagerId) (n : ManagerId) (r : Except Error Unit) :
    Prop :=
  ∀ here : Engine, here.withoutStackCalls = (s.noteEach .preFork asked).withoutStackCalls →
    (here.agree n none).1 = r

/-- A driver that does not look at the calls so far always says the same. -/
theorem answersAfter_of_forall {r : Except Error Unit} (hm : s.manager? n = some m)
    (hr : ∀ calls, (m.driver.hooks.preFork calls).getD m.driver.technology.preFork = r)
    (asked : List ManagerId) : s.AnswersAfter asked n r := by
  intro here hhere
  have hm' : here.manager? n = some m := by rw [manager?_congr hhere, ← hm]; rfl
  rw [agree, manager_eq_ok_iff.mpr hm', ← hr here.trace]
  dsimp only
  cases m.driver.hooks.preFork here.trace <;> rfl

theorem Polled.eq_ok {asked later : List ManagerId} {r : Except Error Unit}
    (h : Polled (asked ++ n :: later) s t) (ha : s.AnswersAfter asked n r) : r = .ok () := by
  obtain ⟨here, hasked, hrest⟩ := h.of_append
  cases hrest with
  | cons same agrees rest => exact (ha _ (same.symm.trans hasked.noted)).symm.trans agrees

/-- A list has one first place at which something is amiss. -/
theorem first_unique {P : List ManagerId → ManagerId → Prop} {a a' b b' : List ManagerId}
    {k k' : ManagerId} (h : a ++ k :: b = a' ++ k' :: b')
    (ha : ∀ x i y, a = x ++ i :: y → P x i) (ha' : ∀ x i y, a' = x ++ i :: y → P x i)
    (hk : ¬P a k) (hk' : ¬P a' k') : a = a' ∧ k = k' := by
  rcases List.append_eq_append_iff.mp h with ⟨rest, rfl, hrest⟩ | ⟨rest, rfl, hrest⟩
  · cases rest with
    | nil => exact ⟨(List.append_nil a).symm, (List.cons.inj hrest).1⟩
    | cons i y =>
      obtain ⟨rfl, -⟩ := List.cons.inj hrest
      exact absurd (ha' a k y rfl) hk
  · cases rest with
    | nil => exact ⟨List.append_nil a', ((List.cons.inj hrest).1).symm⟩
    | cons i y =>
      obtain ⟨rfl, -⟩ := List.cons.inj hrest
      exact absurd (ha a' k' y rfl) hk'

/-- The first leaf that refuses is the last one to be asked, and those before it are told. -/
theorem ForkOutcome.first_refusal {answer : List ManagerId → ManagerId → Except Error Unit}
    {asked later : List ManagerId} {e : Error} {out : Except Error Unit × Engine}
    (h : ForkOutcome ids s out) (hw : ∀ n ∈ ids, ∃ m, s.manager? n = some m)
    (ha : ∀ asked n later, ids = asked ++ n :: later → s.AnswersAfter asked n (answer asked n))
    (hids : ids = asked ++ n :: later)
    (hbefore : ∀ a k b, asked = a ++ k :: b → answer a k = .ok ())
    (hn : answer asked n = .error e) :
    out.1 = .error e ∧ out.2.withoutStackCalls =
      ((s.noteEach .preFork (asked ++ [n])).noteEach .postFork
        asked.reverse).withoutStackCalls := by
  cases h with
  | agreed polled =>
    rw [hids] at polled
    have hok := polled.eq_ok (ha asked n later hids)
    rw [hn] at hok
    cases hok
  | @refused done later' n' here t e' split polled refuses undone =>
    have hreply : answer done n' = .error e' :=
      (ha done n' later' split here polled.noted).symm.trans refuses
    have hdone : ∀ a k b, done = a ++ k :: b → answer a k = .ok () := by
      rintro a k b rfl
      exact polled.eq_ok (ha a k (b ++ n' :: later') (by rw [split]; simp))
    obtain ⟨rfl, rfl⟩ : done = asked ∧ n' = n :=
      first_unique (P := fun a k => answer a k = .ok ()) (split.symm.trans hids) hdone hbefore
        (by simp [hreply]) (by simp [hn])
    obtain ⟨m, hm⟩ := hw n' (by simp [split])
    have hm' : here.manager? n' = some m := by rw [manager?_congr polled.noted n', ← hm]; rfl
    have hasked : (here.agree n' none).2.withoutStackCalls =
        (s.noteEach .preFork (done ++ [n'])).withoutStackCalls := by
      rw [engine_agree hm', noteEach_append, ← noteEach_congr polled.noted, noteEach_cons hm',
        noteEach_nil]
    refine ⟨?_, undone.trans (noteEach_congr hasked ..)⟩
    rw [hreply] at hn
    exact hn

theorem ForkOutcome.ok_iff {answer : List ManagerId → ManagerId → Except Error Unit}
    {out : Except Error Unit × Engine} (h : ForkOutcome ids s out)
    (ha : ∀ asked n later, ids = asked ++ n :: later → s.AnswersAfter asked n (answer asked n)) :
    out.1 = .ok () ↔ ∀ asked n later, ids = asked ++ n :: later → answer asked n = .ok () := by
  cases h with
  | agreed polled =>
    refine ⟨fun _ asked n later hids => ?_, fun _ => rfl⟩
    have hall := polled
    rw [hids] at hall
    exact hall.eq_ok (ha asked n later hids)
  | @refused done later n here t e split polled refuses undone =>
    have hreply := (ha done n later split here polled.noted).symm.trans refuses
    constructor
    · intro h
      cases h
    · intro hall
      rw [hall done n later split] at hreply
      cases hreply

/-- A fork is agreed to if every leaf agrees. The first leaf that refuses is the last one to be
asked, its refusal is reported, and the leaves before it are told that the fork is over, the last
one first. Else all leaves are told so in the end. Leaves stand for themselves at each place that
they have in the tree, and may answer differently there. -/
theorem fork_hooks_balanced {answer : List ManagerId → ManagerId → Except Error Unit}
    (ht : s.Stacked (s.tree id))
    (ha : ∀ asked n later, (s.tree id).leaves = asked ++ n :: later →
      s.AnswersAfter asked n (answer asked n)) :
    ((preFork id s).1 = .ok () ↔ ∀ asked n later, (s.tree id).leaves = asked ++ n :: later →
      answer asked n = .ok ()) ∧
    (∀ asked n later e, (s.tree id).leaves = asked ++ n :: later →
      (∀ a k b, asked = a ++ k :: b → answer a k = .ok ()) → answer asked n = .error e →
      (preFork id s).1 = .error e ∧ (preFork id s).2.log = s.log ++
        s.callsTo .preFork (asked ++ [n]) ++ s.callsTo .postFork asked.reverse) ∧
    ((preFork id s).1 = .ok () → (preFork id s).2.log = s.log ++
        s.callsTo .preFork (s.tree id).leaves ∧
      (postFork id (preFork id s).2).log = s.log ++ s.callsTo .preFork (s.tree id).leaves ++
        s.callsTo .postFork (s.tree id).leaves.reverse) := by
  have hw := ht.worker
  have hout := ht.forkOutcome s rfl
  refine ⟨hout.ok_iff ha, ?_, ?_⟩
  · intro asked n later e hids hbefore hn
    obtain ⟨he, hleft⟩ := hout.first_refusal
      (fun n hn => (hw n hn).imp fun m h => h.1) ha hids hbefore hn
    refine ⟨he, ?_⟩
    have hasked : ∀ k ∈ asked ++ [n], ∃ m, s.manager? k = some m ∧ m.driver.isStack = false := by
      intro k hk
      refine hw k ?_
      rw [hids, List.append_cons]
      exact List.mem_append_left later hk
    have htold : ∀ k ∈ asked.reverse, ∃ m, s.manager? k = some m ∧ m.driver.isStack = false :=
      fun k hk => hasked k (List.mem_append_left [n] (List.mem_reverse.mp hk))
    have hlog := log_congr hleft
    rwa [log_noteEach (s := s.noteEach .preFork (asked ++ [n])) htold, log_noteEach hasked] at hlog
  · intro hok
    have hagreed : (preFork id s).2.withoutStackCalls =
        (s.noteEach .preFork (s.tree id).leaves).withoutStackCalls := by
      rw [preFork] at hok ⊢
      cases hpre : (s.tree id).preFork s with
      | mk r out =>
        rw [hpre] at hok hout
        cases hout with
        | agreed polled => exact polled.noted
        | refused split polled refuses undone => cases hok
    have hlog := (log_congr hagreed).trans (log_noteEach hw .preFork)
    refine ⟨hlog, ?_⟩
    have hmanagers : (preFork id s).2.managers = s.managers := (managers_congr hagreed :)
    have hw' : ∀ k ∈ (s.tree id).leaves.reverse,
        ∃ m, (preFork id s).2.manager? k = some m ∧ m.driver.isStack = false := by
      intro k hk
      rw [manager?_of_managers hmanagers]
      exact hw k (List.mem_reverse.mp hk)
    rw [postFork, (SameRoles.of_managers hmanagers).tree id, log_congr (ht.postFork _ hmanagers),
      log_noteEach hw', hlog, callsTo_of_managers hmanagers]

/-- A driver that lets no fork happen. -/
def objector : Driver where
  name := "objector"
  technology := .none
  initial := .none
  available _ := true
  hooks := { preFork := fun _ => some (.error (.driver "objector" (.other "pre_fork failed"))) }

/-- Ownership, a stack of a manager that labels nothing and of the objector, and that manager
again. -/
def forkingHost : Engine where
  managers :=
    [some ⟨.dac, "qemu", {}, .dac {}⟩,
     some ⟨.none, "qemu", {}, .none⟩,
     some ⟨objector, "qemu", {}, .none⟩,
     some ⟨.stack, "qemu", {}, .stack [1, 2]⟩,
     some ⟨.stack, "qemu", {}, .stack [0, 3, 1]⟩]
  held := [4]

/-- The inner stack and then the outer one tell those that have agreed, and no other one is
asked. -/
theorem balanced_forkingHost :
    (preFork 4 forkingHost).1 = .error (.driver "objector" (.other "pre_fork failed")) ∧
      (preFork 4 forkingHost).2.log.map (fun c => (c.request, c.manager)) =
        [(.preFork, some 0), (.preFork, some 1), (.preFork, some 2), (.postFork, some 1),
          (.postFork, some 0)] := by
  have htree : forkingHost.tree 4 =
      .stack 4 [.leaf 0, .stack 3 [.leaf 1, .leaf 2], .leaf 1] := rfl
  have hdac : forkingHost.Stacked (.leaf 0) := .leaf rfl rfl
  have hnone : forkingHost.Stacked (.leaf 1) := .leaf rfl rfl
  have hobjector : forkingHost.Stacked (.leaf 2) := .leaf rfl rfl
  have hinner : forkingHost.Stacked (.stack 3 [.leaf 1, .leaf 2]) :=
    .stack rfl rfl (by simpa using ⟨hnone, hobjector⟩)
  have ht : forkingHost.Stacked (forkingHost.tree 4) := by
    rw [htree]
    exact .stack rfl rfl (by simpa using ⟨hdac, hinner, hnone⟩)
  have hleaves : (forkingHost.tree 4).leaves = [0, 1, 2, 1] := by
    rw [htree]
    simp
  have hanswers : ∀ asked n later, (forkingHost.tree 4).leaves = asked ++ n :: later →
      forkingHost.AnswersAfter asked n
        (if n = 2 then .error (.driver "objector" (.other "pre_fork failed")) else .ok ()) := by
    intro asked n later hids
    have hn : n ∈ [0, 1, 2, 1] := by rw [← hleaves, hids]; simp
    simp only [List.mem_cons, List.not_mem_nil, or_false] at hn
    rcases hn with rfl | rfl | rfl | rfl
    · exact answersAfter_of_forall rfl (fun _ => rfl) asked
    · exact answersAfter_of_forall rfl (fun _ => rfl) asked
    · exact answersAfter_of_forall rfl (fun _ => rfl) asked
    · exact answersAfter_of_forall rfl (fun _ => rfl) asked
  have hbefore : ∀ a k b, [0, 1] = a ++ k :: b →
      (if k = 2 then .error (.driver "objector" (.other "pre_fork failed")) else .ok () :
        Except Error Unit) = .ok () := by
    intro a k b h
    have hk : k ∈ [0, 1] := by rw [h]; simp
    have hk : k ≠ 2 := by rintro rfl; simp at hk
    simp [hk]
  obtain ⟨-, hrefusal, -⟩ := fork_hooks_balanced ht hanswers
  obtain ⟨he, hlog⟩ := hrefusal [0, 1] 2 [1] _ hleaves hbefore rfl
  refine ⟨he, ?_⟩
  rw [hlog]
  rfl

end Engine

end Confinement
