import Mecocoa.Process.Tree

/-! # The process tree while processes end

The child lists and the parent numbers say the same at each turn of the loop over the
children of a process that ends, and the loop only takes away exited children of processes
that are no longer active.
-/

namespace Mecocoa.Process

open Procs List Option
open Function (update update_self update_apply)

variable {s s' : Procs n}

/-- The child lists hold the processes that name the list's owner. -/
structure Tree (ids : SystemTasks n) (s : Procs n) : Prop where
  nodup : s.chain.Nodup
  initIn : ids.init ∈ s.chain
  distinct : ∀ p, (s.children p).Nodup
  listed : ∀ p ∈ s.chain, ∀ c, c ∈ s.children p ↔ c ∈ s.chain ∧
    s.state c ≠ .invalid ∧ c ≠ ids.kernel ∧ s.parentId c = p
  unlisted : ∀ p, p ∉ s.chain → s.children p = []

theorem Tree.congr (tree : Tree ids s) (chain : s'.chain = s.chain)
    (children : s'.children = s.children) (parentId : s'.parentId = s.parentId)
    (state : ∀ c, s'.state c = .invalid ↔ s.state c = .invalid) :
    Tree ids s' := by
  constructor
  · rw [chain]
    exact tree.nodup
  · rw [chain]
    exact tree.initIn
  · rw [children]
    exact tree.distinct
  · intro p member c
    rw [chain] at member ⊢
    rw [children, parentId, tree.listed p member c]
    simp only [ne_eq, state c]
  · rw [chain, children]
    exact tree.unlisted

theorem Tree.reparent (tree : Tree ids s) (inChain : p ∈ s.chain)
    (notInit : p ≠ ids.init) (head : s.children p = child :: rest) :
    Tree ids (({ s with children := update s.children p rest } : Procs n).reparent ids child) := by
  have own := (tree.listed p inChain child).mp (by simp [head])
  have nodup := tree.distinct p
  rw [head, nodup_cons] at nodup
  have notListed : child ∉ s.children ids.init := fun member =>
    notInit (own.2.2.2.symm.trans ((tree.listed _ tree.initIn child).mp member).2.2.2)
  have lists :
    (({ s with children := update s.children p rest } : Procs n).reparent ids child).children =
      fun q => if q = ids.init then child :: s.children q else if q = p then rest
          else s.children q := by
    funext q
    simp only [Procs.reparent, if_pos tree.initIn, update_apply]
    grind
  constructor
  · exact tree.nodup
  · exact tree.initIn
  · intro q
    rw [lists]
    have := tree.distinct q
    grind
  · intro q qIn c
    rw [lists]
    have was := tree.listed q qIn c
    simp only [Procs.reparent, update_apply]
    grind
  · intro q absent
    rw [lists]
    have := tree.unlisted q absent
    have := tree.initIn
    simp only [Procs.reparent] at absent
    grind

theorem Tree.append (tree : Tree ids s) (outside : c ∉ s.chain) (notParent : parent ≠ c)
    (notKernel : c ≠ ids.kernel) (apart : ∀ d ∈ s.chain, s.parentId d ≠ c) :
    Tree ids (s.append parent c) := by
  have unlisted : ∀ q, c ∉ s.children q := by
    intro q member
    by_cases inChain : q ∈ s.chain
    · exact outside ((tree.listed q inChain c).mp member).1
    · rw [tree.unlisted q inChain] at member
      cases member
  have lists : ∀ q, (s.append parent c).children q =
      if q = parent ∧ parent ∈ s.chain then c :: s.children q else s.children q := by
    intro q
    simp only [Procs.append]
    split
    · simp only [update_apply]
      grind
    · grind
  constructor
  · exact nodup_append.mpr ⟨tree.nodup, nodup_singleton c, by grind⟩
  · exact mem_append_left _ tree.initIn
  · intro q
    rw [lists]
    have := tree.distinct q
    grind
  · intro q qIn d
    rw [lists]
    have was := tree.listed q
    have empty := tree.unlisted q
    simp only [Procs.append, update_apply, mem_append, mem_singleton] at *
    grind
  · intro q absent
    rw [lists]
    have := tree.unlisted q
    simp only [Procs.append, mem_append, mem_singleton] at absent
    grind

/-- What `_Exit_Cleanup` does before its loop. -/
def Procs.expire (c : Fin n) (s : Procs n) : Procs n := (s.setState c .invalid).unlink c

theorem expire_children (c : Fin n) (s : Procs n) (tree : Tree ids s) (q : Fin n) :
    (s.expire c).children q = if q = s.parentId c then (s.children q).erase c
      else s.children q := by
  unfold expire unlink setState
  split
  · simp only [update_apply]
    grind
  · rename_i absent
    have := tree.unlisted (s.parentId c) absent
    grind

@[simp] theorem expire_chain (c : Fin n) (s : Procs n) : (s.expire c).chain = s.chain := by
  simp only [expire, unlink]; split <;> rfl

@[simp] theorem expire_parentId (c : Fin n) (s : Procs n) : (s.expire c).parentId = s.parentId := by
  simp only [expire, unlink]; split <;> rfl

@[simp] theorem expire_state (c : Fin n) (s : Procs n) :
    (s.expire c).state = update s.state c .invalid := by
  simp only [expire, unlink]; split <;> rfl

theorem Tree.expire (tree : Tree ids s) (c : Fin n) : Tree ids (s.expire c) := by
  have lists := expire_children c s tree
  constructor
  · rw [expire_chain]
    exact tree.nodup
  · rw [expire_chain]
    exact tree.initIn
  · intro q
    rw [lists]
    split
    · exact (tree.distinct q).erase c
    · exact tree.distinct q
  · intro q qIn d
    rw [expire_chain] at qIn ⊢
    rw [lists, expire_parentId, expire_state, update_apply]
    have was := tree.listed q qIn d
    have mem := (tree.distinct q).mem_erase_iff (a := d) (b := c)
    grind
  · intro q absent
    rw [expire_chain] at absent
    rw [lists, tree.unlisted q absent]
    simp

theorem Tree.expire_live (tree : Tree ids s) (inChain : c ∈ s.chain)
    (live : ∀ d, s.state d = .hanging → s.parentId d ≠ c) :
    ∀ d ∈ (s.expire c).children c, (s.expire c).state d ≠ .hanging := by
  intro d member
  have := ((tree.expire c).listed c (by simpa using inChain) d).mp member
  simp only [expire_state, expire_parentId, update_apply] at *
  grind

theorem Tree.drop (tree : Tree ids s) (notInit : c ≠ ids.init) (gone : s.state c = .invalid)
    (empty : s.children c = []) : Tree ids (s.drop c) := by
  have chain : ∀ d, d ∈ s.chain.erase c ↔ d ≠ c ∧ d ∈ s.chain :=
    fun d => tree.nodup.mem_erase_iff
  constructor
  · exact tree.nodup.erase c
  · exact (chain _).mpr ⟨notInit.symm, tree.initIn⟩
  · exact tree.distinct
  · intro q qIn d
    have was := tree.listed q ((chain q).mp qIn).2 d
    simp only [Procs.drop]
    grind
  · intro q absent
    simp only [Procs.drop, chain] at absent
    by_cases same : q = c
    · rw [same]
      exact empty
    · exact tree.unlisted q (fun member => absent ⟨same, member⟩)

/-- Once the head of a list is marked, taking it off the list changes nothing more. -/
theorem exitCleanup_popped (tree : Tree ids s) (inChain : p ∈ s.chain)
    (head : s.children p = child :: rest) {reap} :
    exitCleanup reap child { s with children := update s.children p rest } =
      exitCleanup reap child s := by
  obtain ⟨-, standing, -, own⟩ := (tree.listed p inChain child).mp (by simp [head])
  have nodup := tree.distinct p
  rw [head, nodup_cons] at nodup
  simp only [exitCleanup, unlink, setState, if_neg standing, own, if_pos inChain, head]
  simp [erase_of_not_mem nodup.1]

/-- Processes that a loop over children may take away. -/
def Dead (s : Procs n) (c : Fin n) : Prop :=
  s.state c = .hanging ∧ s.state (s.parentId c) ≠ .active

def Procs.call (s : Procs n) (p : Fin n) :
    Bool × Option (Target n) × Option (Target n) × List (Reply n) :=
  (s.inCall p, s.request p, s.waiting p, s.mail p)

/-- `s'` is `s` after dead or marked processes were taken away and orphans handed on. -/
structure Tidies (ids : SystemTasks n) (marked : Fin n → Prop) (s s' : Procs n) : Prop where
  born : s'.born = s.born
  exitStatus : s'.exitStatus = s.exitStatus
  told : s'.told = s.told
  ended : s'.ended = s.ended
  state : ∀ c, s'.state c = s.state c ∨ ((Dead s c ∨ marked c) ∧ s'.state c = .invalid)
  parentId : ∀ c, s'.parentId c = s.parentId c ∨
    (s'.state c ≠ .hanging ∧ s'.parentId c = ids.init ∧ s.state (s.parentId c) ≠ .active)
  chain : ∀ c, c ∈ s'.chain ↔ c ∈ s.chain ∧ s'.state c = s.state c
  calls : ∀ c, s'.call c = s.call c ∨ (c ∉ s'.chain ∧ s'.call c = (false, none, none, []))

theorem Tidies.refl (s : Procs n) : Tidies ids (fun _ => False) s s where
  born := rfl
  exitStatus := rfl
  told := rfl
  ended := rfl
  state _ := .inl rfl
  parentId _ := .inl rfl
  chain _ := by simp
  calls _ := .inl rfl

theorem Tidies.trans (first : Tidies ids (fun _ => False) s s')
    (second : Tidies ids (fun _ => False) s' s'') : Tidies ids (fun _ => False) s s'' where
  born := second.born.trans first.born
  exitStatus := second.exitStatus.trans first.exitStatus
  told := second.told.trans first.told
  ended := second.ended.trans first.ended
  state c := by
    have here := first.state c
    have parent := first.state (s.parentId c)
    have same := first.parentId c
    have next := second.state c
    simp only [Dead, or_false] at *
    grind
  parentId c := by
    have := first.parentId c
    have := second.parentId c
    have := second.state c
    have := first.state (s.parentId c)
    simp only [Dead, or_false] at *
    grind
  chain c := by
    rw [second.chain, first.chain]
    have := first.state c
    have := second.state c
    simp only [Dead, or_false] at *
    grind
  calls c := by
    have := first.calls c
    have := second.calls c
    have := second.chain c
    grind

theorem Tidies.reparent (alive : s.state child ≠ .hanging)
    (orphan : s.state (s.parentId child) ≠ .active) : Tidies ids (fun _ => False) s
      (({ s with children := update s.children p rest } : Procs n).reparent ids child) where
  born := rfl
  exitStatus := rfl
  told := rfl
  ended := rfl
  state _ := .inl rfl
  parentId c := by
    simp only [Procs.reparent, update_apply]
    grind
  chain _ := by simp [Procs.reparent]
  calls _ := .inl rfl

/-- A loop over the children of a marked process, and the end of that process. -/
theorem Tidies.drop (nodup : s₁.chain.Nodup) (standing : s.state c ≠ .invalid)
    (idle : s.state c ≠ .active) (tidies : Tidies ids (fun _ => False) (s.expire c) s₁) :
    Tidies ids (· = c) s (s₁.drop c) := by
  have states := tidies.state
  have parents := tidies.parentId
  have chains := tidies.chain
  simp only [Dead, expire_state, expire_parentId, expire_chain, update_apply,
    or_false] at states parents chains
  have erased : ∀ d, d ∈ s₁.chain.erase c ↔ d ≠ c ∧ d ∈ s₁.chain :=
    fun d => nodup.mem_erase_iff
  have frame : (s.expire c).born = s.born ∧ (s.expire c).exitStatus = s.exitStatus ∧
    (s.expire c).told = s.told ∧
      (s.expire c).ended = s.ended ∧ (s.expire c).call = s.call := by
    simp only [Procs.expire, unlink]
    split <;> exact ⟨rfl, rfl, rfl, rfl, rfl⟩
  obtain ⟨born, exitStatus, told, ended, calls⟩ := frame
  constructor
  · exact tidies.born.trans born
  · exact tidies.exitStatus.trans exitStatus
  · exact tidies.told.trans told
  · exact tidies.ended.trans ended
  · intro d
    have := states d
    simp only [Procs.drop, Dead]
    grind
  · intro d
    have := parents d
    simp only [Procs.drop]
    grind
  · intro d
    simp only [Procs.drop, erased, chains]
    have := states d
    grind
  · intro d
    have was := tidies.calls d
    rw [calls] at was
    by_cases same : d = c
    · refine .inr ⟨fun member => ((erased d).mp member).1 same, ?_⟩
      simp [Procs.call, Procs.drop, same]
    · have unchanged : (s₁.drop c).call d = s₁.call d := by simp [Procs.call, Procs.drop, same]
      rw [unchanged]
      simp only [Procs.drop]
      grind

/-- A marked process that was dead needs no mark. -/
theorem Tidies.unmark (tidies : Tidies ids (· = c) s s') (dead : Dead s c) :
    Tidies ids (fun _ => False) s s' :=
  { tidies with
    state := by
      intro d
      have := tidies.state d
      grind }

theorem Tidies.active_iff (tidies : Tidies ids (fun _ => False) s s') (q : Fin n) :
    s'.state q = .active ↔ s.state q = .active := by
  have := tidies.state q
  simp only [Dead, or_false] at this
  grind

theorem Tidies.expired (tidies : Tidies ids (fun _ => False) (s.expire c) s') :
    s'.state c = .invalid := by
  have := tidies.state c
  simp only [expire_state, update_self] at this
  grind

theorem Tidies.same_state (tidies : Tidies ids (fun _ => False) s s')
    (ended : s.state p ≠ .active ∧ s.state p ≠ .hanging) : s'.state p = s.state p := by
  have := tidies.state p
  simp only [Dead, or_false] at this
  grind

theorem Tree.length_le (tree : Tree ids s) (q : Fin n) : (s.children q).length ≤ n := by
  simpa using (tree.distinct q).length_le_card

theorem reparent_children (s : Procs n) (notInit : p ≠ ids.init) :
    (({ s with children := update s.children p rest } : Procs n).reparent ids child).children p =
      rest := by
  simp only [Procs.reparent]
  split <;> simp [notInit]

/-- The loop over the children of a process that ends, where no child has exited. -/
theorem reapChildren_live : ∀ (fuel : Nat) (p : Fin n) (s : Procs n), Tree ids s →
    p ∈ s.chain → p ≠ ids.init →
    s.state p ≠ .active → (∀ c ∈ s.children p, s.state c ≠ .hanging) →
      (s.children p).length < fuel →
    ∃ s', reapChildren ids fuel p s = some s' ∧ Tree ids s' ∧ s'.children p = [] ∧
      Tidies ids (fun _ => False) s s' := by
  intro fuel
  induction fuel with
  | zero =>
    intro p s _ _ _ _ _ short
    omega
  | succ fuel ih =>
    intro p s tree inChain notInit ended live short
    unfold reapChildren
    split
    · rename_i empty
      exact ⟨s, rfl, tree, empty, .refl s⟩
    rename_i child rest head
    have own := (tree.listed p inChain child).mp (by simp [head])
    simp only [head, mem_cons, forall_eq_or_imp, length_cons] at live short
    rw [if_neg live.1]
    obtain ⟨s', ran, tree', empty, tidies⟩ :=
      ih p _ (tree.reparent inChain notInit head) inChain notInit ended
      (by rw [reparent_children s notInit]; exact live.2)
      (by rw [reparent_children s notInit]; omega)
    exact ⟨s', ran, tree', empty,
      (Tidies.reparent live.1 (by rw [own.2.2.2]; exact ended)).trans tidies⟩

/-- The end of a process without exited children. -/
theorem exitCleanup_live (tree : Tree ids s) (inChain : c ∈ s.chain) (notInit : c ≠ ids.init)
    (standing : s.state c ≠ .invalid) (ended : s.state c ≠ .active)
    (live : ∀ d, s.state d = .hanging → s.parentId d ≠ c) (enough : n < fuel) :
    ∃ s', exitCleanup (reapChildren ids fuel) c s = some s' ∧ Tree ids s' ∧
      Tidies ids (· = c) s s' ∧
      s'.state c = .invalid := by
  have short := (tree.expire c).length_le c
  obtain ⟨s₁, looped, tree₁, empty, tidies⟩ :=
    reapChildren_live fuel c (s.expire c) (tree.expire c)
    (by simpa using inChain) notInit (by simp) (tree.expire_live inChain live) (by omega)
  refine ⟨s₁.drop c, ?_, tree₁.drop notInit tidies.expired empty,
    .drop tree₁.nodup standing ended tidies, tidies.expired⟩
  rw [exitCleanup, if_neg standing]
  exact congrArg (Option.map (Procs.drop c)) looped

/-- No exited process is the parent of one. -/
def Shallow (s : Procs n) : Prop :=
  ∀ c d, s.state c = .hanging → s.state d = .hanging → s.parentId d ≠ c

theorem Tidies.hanging (tidies : Tidies ids (fun _ => False) s s')
    (hanging : s'.state c = .hanging) :
    s.state c = .hanging ∧ s'.parentId c = s.parentId c := by
  have := tidies.state c
  have := tidies.parentId c
  grind

theorem Tidies.shallow (tidies : Tidies ids (fun _ => False) s s') (shallow : Shallow s) :
    Shallow s' := by
  intro c d hanging below
  rw [(tidies.hanging below).2]
  exact shallow c d (tidies.hanging hanging).1 (tidies.hanging below).1

theorem reapChildren_returns : ∀ (fuel : Nat) (p : Fin n) (s : Procs n), Tree ids s →
    p ∈ s.chain →
    p ≠ ids.init → s.state ids.init = .active → s.state p ≠ .active ∧
      s.state p ≠ .hanging → Shallow s →
    (s.children p).length + n < fuel →
    ∃ s', reapChildren ids fuel p s = some s' ∧ Tree ids s' ∧ s'.children p = [] ∧
      Tidies ids (fun _ => False) s s' := by
  intro fuel
  induction fuel with
  | zero =>
    intro p s _ _ _ _ _ _ short
    omega
  | succ fuel ih =>
    intro p s tree inChain notInit initActive ended shallow short
    unfold reapChildren
    split
    · rename_i empty
      exact ⟨s, rfl, tree, empty, .refl s⟩
    rename_i child rest head
    have own := (tree.listed p inChain child).mp (by simp [head])
    have orphan : s.state (s.parentId child) ≠ .active := by
      rw [own.2.2.2]
      exact ended.1
    simp only [head, length_cons] at short
    dsimp only
    split
    · rename_i hanging
      have childNotInit : child ≠ ids.init := by
        rintro rfl
        rw [initActive] at hanging
        cases hanging
      obtain ⟨mid, cleaned, treeMid, marked, gone⟩ :=
        exitCleanup_live tree own.1 childNotInit own.2.1
        (by simp [hanging]) (fun d => shallow child d hanging) (show n < fuel by omega)
      have tidies := marked.unmark ⟨hanging, orphan⟩
      have same := tidies.same_state ended
      have inChain' := (tidies.chain p).mpr ⟨inChain, same⟩
      -- what is left in the list was behind the head before
      have fewer : (mid.children p).length ≤ rest.length := by
        apply Subperm.length_le
        apply subperm_of_subset (treeMid.distinct p)
        intro c member
        have now := (treeMid.listed p inChain' c).mp member
        have was := tree.listed p inChain c
        have parent := tidies.parentId c
        have here := (tidies.chain c).mp now.1
        rw [head, mem_cons] at was
        grind
      obtain ⟨s', looped, tree', empty, rest'⟩ := ih p mid treeMid inChain' notInit
        ((tidies.active_iff _).mpr initActive) (by rw [same]; exact ended) (tidies.shallow shallow)
        (by omega)
      rw [exitCleanup_popped tree inChain head, cleaned]
      exact ⟨s', looped, tree', empty, tidies.trans rest'⟩
    · rename_i alive
      have tidies : Tidies ids (fun _ => False) s
          (({ s with children := update s.children p rest } : Procs n).reparent ids child) :=
          .reparent alive orphan
      obtain ⟨s', ran, tree', empty, rest'⟩ :=
        ih p _ (tree.reparent inChain notInit head) inChain notInit initActive ended
        (tidies.shallow shallow) (by rw [reparent_children s notInit]; omega)
      exact ⟨s', ran, tree', empty, tidies.trans rest'⟩

end Mecocoa.Process
