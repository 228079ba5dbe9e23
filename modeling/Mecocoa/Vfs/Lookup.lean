import Mecocoa.Vfs.Walk

/-! # Lookup is the walk over the file systems

Where the cache agrees with the file systems, a lookup gives what a walk over the components
gives, whatever is cached.  The delegated part has to be one that the lookup hands over as it
stands: names that fit, no dots in what is left of the path, and a directory whose path the
lookup can rebuild in its buffers.
-/

namespace Mecocoa.Vfs

open Dcache Lib Option List World

variable {Fs N : Type} {B : Backends Fs N} {s s' : Dcache Fs N}

variable {place : Place}

theorem walkDown_append (s : Dcache Fs N) (r : Nat) (p q : List Name) :
    s.walkDown r (p ++ q) = (s.walkDown r p).bind (s.walkDown · q) := by
  induction p generalizing r with
  | nil => rfl
  | cons name rest ih =>
    simp only [cons_append, walkDown, bind_assoc]
    congr
    funext d
    exact ih d

theorem walkDown_snoc (s : Dcache Fs N) (r : Nat) (p : List Name) (name : Name) :
    s.walkDown r (p ++ [name]) = (s.walkDown r p).bind (s.lookupDentry · name) := by
  rw [walkDown_append]
  congr
  funext d
  simp [walkDown]

/-- The root entry of the file system behind these mount points. -/
def rootAt (s : Dcache Fs N) : Place → Option Nat
  | [] => some vfsRoot
  | outer => (s.find outer).bind s.mounts

theorem find_cons (s : Dcache Fs N) (path : List Name) (outer : Place) :
    s.find (path :: outer) = (rootAt s outer).bind (s.walkDown · path) := by
  cases outer <;> rfl

theorem find_append (s : Dcache Fs N) (p q : List Name) (outer : Place) :
    s.find ((p ++ q) :: outer) = (s.find (p :: outer)).bind (s.walkDown · q) := by
  simp only [find_cons, bind_assoc, walkDown_append]

theorem find_snoc (s : Dcache Fs N) (p : List Name) (name : Name) (outer : Place) :
    s.find ((p ++ [name]) :: outer) = (s.find (p :: outer)).bind (s.lookupDentry · name) := by
  simp only [find_cons, bind_assoc, walkDown_snoc]

theorem find_mounted (found : s.find place = some d) : s.find ([] :: place) = s.mounts d := by
  cases place with
  | nil => cases found
  | cons path outer =>
    simp only [find_cons s [], rootAt, found, bind_some]
    cases s.mounts d <;> rfl

/-- What is cached below an entry, and the way back up. -/
theorem Wf.walkDown (wf : Wf s) (liveR : s.live r) (top : s.parent r = none)
    (found : s.walkDown r path = some d) :
    s.live d ∧ path.length ≤ d ∧
      (∀ fuel, path.length ≤ fuel → s.mountRoot fuel d = r) ∧
      ∀ count, path.length ≤ count → s.namesUp r count d = path.reverse := by
  induction path using reverseRecOn generalizing d with
  | nil =>
    cases found
    refine ⟨liveR, Nat.zero_le _, ?_, ?_⟩
    · intro fuel _
      cases fuel with
      | zero => rfl
      | succ fuel =>
        unfold mountRoot
        rw [top]
    · intro count _
      cases count with
      | zero => rfl
      | succ count => simp [namesUp]
  | append_singleton path name ih =>
    rw [walkDown_snoc] at found
    obtain ⟨e, foundE, foundD⟩ := bind_eq_some_iff.mp found
    obtain ⟨liveE, depth, climbs, names⟩ := ih foundE
    obtain ⟨liveD, parent, named, _⟩ := wf.lookup_live liveE foundD
    have younger := (wf.parentOk d e liveD parent).2.1
    have apart : d ≠ r := by
      rintro rfl
      rw [top] at parent
      cases parent
    refine ⟨liveD, by simp only [length_append, length_singleton]; omega, ?_, ?_⟩
    · intro fuel enough
      simp only [length_append, length_singleton] at enough
      obtain ⟨fuel, rfl⟩ : ∃ k, fuel = k + 1 := ⟨fuel - 1, by omega⟩
      unfold mountRoot
      rw [parent]
      exact climbs fuel (by omega)
    · intro count enough
      simp only [length_append, length_singleton] at enough
      obtain ⟨count, rfl⟩ : ∃ k, count = k + 1 := ⟨count - 1, by omega⟩
      unfold namesUp
      rw [if_neg apart, parent, named, reverse_append]
      simp [names count (by omega)]

theorem Backends.resolve_append (B : Backends Fs N) (fs : Fs) (node : N) (p q : List Name) :
    B.resolve fs node (p ++ q) = (B.resolve fs node p).bind (B.resolve fs · q) := by
  simp only [resolve, foldlM_append]
  rfl

theorem Wf.rootAt_top (wf : Wf s) : ∀ {outer : Place} {r : Nat}, rootAt s outer = some r →
    s.live r ∧ s.parent r = none := by
  intro outer
  induction outer with
  | nil =>
    rintro r ⟨⟩
    exact ⟨wf.rootLive, wf.rootTop.1⟩
  | cons path outer ih =>
    intro r at_
    obtain ⟨t, found, mounted⟩ := bind_eq_some_iff.mp at_
    rw [find_cons] at found
    obtain ⟨above, atAbove, down⟩ := bind_eq_some_iff.mp found
    obtain ⟨liveAbove, topAbove⟩ := ih atAbove
    have liveT := (wf.walkDown liveAbove topAbove down).1
    exact ⟨(wf.mountsOk t r liveT mounted).1, (wf.mountsOk t r liveT mounted).2.1⟩

theorem Wf.find_live (wf : Wf s) (found : s.find place = some d) : s.live d := by
  cases place with
  | nil => cases found
  | cons path outer =>
    rw [find_cons] at found
    obtain ⟨r, atR, down⟩ := bind_eq_some_iff.mp found
    exact (wf.walkDown (wf.rootAt_top atR).1 (wf.rootAt_top atR).2 down).1

namespace Agrees

variable (agrees : Agrees B s)

include agrees

/-- A cached entry is in the file system it was found in, and holds what its path means there. -/
theorem walkDown_held (liveR : s.live r) (found : s.walkDown r path = some d) :
    s.live d ∧ s.sb d = s.sb r ∧
    ∀ fs node, s.driver (s.sb r) = .backend fs → s.node r = some node →
      s.node d = B.resolve fs node path := by
  induction path using reverseRecOn generalizing d with
  | nil =>
    cases found
    exact ⟨liveR, rfl, fun _ _ _ start => start⟩
  | append_singleton path name ih =>
    rw [walkDown_snoc] at found
    obtain ⟨e, foundE, foundD⟩ := bind_eq_some_iff.mp found
    obtain ⟨liveE, same, held⟩ := ih foundE
    obtain ⟨liveD, parent, named, _⟩ := agrees.lookup_live liveE foundD
    refine ⟨liveD, (agrees.inherits d e liveD parent).trans same,
      fun fs node driver start => ?_⟩
    rw [agrees.childNode d e fs liveD parent (by rw [same]; exact driver),
      held fs node driver start,
      Backends.resolve_append, named]
    simp [Backends.resolve]

theorem find_rootfs (found : s.find [path] = some d) : s.driver (s.sb d) = .rootfs := by
  rw [(agrees.walkDown_held agrees.rootLive found).2.1, agrees.rootDriver.2, agrees.rootDriver.1]

/-- What is mounted on an entry is a file system. -/
theorem mountedFs_some (live : s.live d) (mounted : s.mounts d = some r) :
    ∃ fs, s.driver (s.sb r) = .backend fs ∧ s.mountedFs d = some fs := by
  obtain ⟨liveR, top, notRoot, _⟩ := agrees.mountsOk d r live mounted
  obtain ⟨member, notFirst, _⟩ := agrees.tops r liveR top notRoot
  obtain ⟨fs, driver⟩ := agrees.drivers _ member notFirst
  exact ⟨fs, driver, by simp [mountedFs, mounted, driver]⟩

theorem mounts_none (live : s.live d) (nothing : s.mountedFs d = none) : s.mounts d = none := by
  cases mounted : s.mounts d with
  | none => rfl
  | some r =>
    obtain ⟨fs, _, here⟩ := agrees.mountedFs_some live mounted
    rw [nothing] at here
    cases here

/-- An entry behind a mount. -/
theorem find_within (found : s.find (path :: o :: outer) = some d) :
    ∃ r fs, s.find ([] :: o :: outer) = some r ∧ s.live r ∧ s.parent r = none ∧
      s.walkDown r path = some d ∧
      s.world.mount (o :: outer) = some fs ∧ s.driver (s.sb d) = .backend fs ∧
      s.node d = B.resolve fs (B.root fs) path := by
  rw [find_cons] at found
  obtain ⟨r, atR, down⟩ := bind_eq_some_iff.mp found
  obtain ⟨liveR, top⟩ := agrees.rootAt_top atR
  obtain ⟨t, foundT, mounted⟩ := bind_eq_some_iff.mp atR
  obtain ⟨fs, driver, here⟩ := agrees.mountedFs_some (agrees.find_live foundT) mounted
  obtain ⟨_, sameSb, held⟩ := agrees.walkDown_held liveR down
  refine ⟨r, fs, by rw [find_mounted foundT, mounted], liveR, top,
    down, by simp [Dcache.world, foundT, here], ?_,
    held fs _ driver (agrees.rootNode r fs liveR top driver)⟩
  rw [sameSb, driver]

theorem identity_find (found : s.find place = some d) :
    s.identity d = s.world.identity B place := by
  match place with
  | [] => cases found
  | [path] =>
    obtain ⟨_, depth, climbs, names⟩ :=
      agrees.toWf.walkDown agrees.rootLive agrees.rootTop.1 found
    simp only [Dcache.identity, World.identity, agrees.find_rootfs found, pathOf, climbs d depth,
      names d depth,
      reverse_reverse]
  | path :: o :: outer =>
    obtain ⟨r, fs, -, -, -, -, mount, driver, node⟩ := agrees.find_within found
    simp only [Dcache.identity, World.identity, driver, mount, node]

theorem find_present (found : s.find place = some d) : s.world.present B place = true := by
  match place with
  | [] => cases found
  | [path] => simp [present, Dcache.world, found]
  | path :: o :: outer =>
    obtain ⟨r, fs, -, -, -, -, mount, driver, node⟩ := agrees.find_within found
    have held := agrees.nodeIn d fs (agrees.find_live found) driver
    rw [node] at held
    simp [present, mount, held]

end Agrees

/-- Places that a walk from the root is at: no mount point is passed over on the way. -/
inductive Clear (W : World Fs) : Place → Prop where
  | root : W.mount [[]] = none → Clear W [[]]
  | child {path : List Name} {outer : Place} {name : Name} : Clear W (path :: outer) →
      W.mount ((path ++ [name]) :: outer) = none → Clear W ((path ++ [name]) :: outer)
  | mounted {path : List Name} {outer : Place} {name : Name} : Clear W (path :: outer) →
      W.mount ([] :: (path ++ [name]) :: outer) = none → Clear W ([] :: (path ++ [name]) :: outer)

theorem Clear.prefix_free (clear : Clear W place) :
    ∀ path outer, place = path :: outer → ∀ q, q <+: path →
      W.mount (q :: outer) = none := by
  induction clear with
  | root here =>
    rintro path outer ⟨⟩ q isPrefix
    rw [prefix_nil.mp isPrefix]
    exact here
  | child clear here ih =>
    rintro path outer ⟨⟩ q isPrefix
    rcases prefix_concat_iff.mp isPrefix with rfl | shorter
    · exact here
    · exact ih _ _ rfl q shorter
  | mounted clear here ih =>
    rintro path outer ⟨⟩ q isPrefix
    rw [prefix_nil.mp isPrefix]
    exact here

theorem Clear.above (clear : Clear W place) : Clear W (above place) := by
  cases clear with
  | root here => exact .root here
  | @child path outer name clear here =>
    cases outer with
    | nil => simpa [above] using clear
    | cons o outer => simpa [above] using clear
  | mounted clear here => simpa [above] using clear

namespace Agrees

/-- `..` leads to the place above. -/
theorem find_above (agrees : Agrees B s) (clear : Clear s.world place)
    (found : s.find place = some d) :
    s.find (above place) = some (s.up d) := by
  have up_child : ∀ {path : List Name} {outer : Place} {name : Name} {c : Nat},
      s.find ((path ++ [name]) :: outer) = some c → ∃ e, s.find (path :: outer) = some e ∧
          s.parent c = some e := by
    intro path outer name c found
    rw [find_snoc] at found
    obtain ⟨e, foundE, foundC⟩ := bind_eq_some_iff.mp found
    exact ⟨e, foundE, (agrees.lookup_live (agrees.find_live foundE) foundC).2.1⟩
  cases clear with
  | root here =>
    cases found
    simp [above, Dcache.up, agrees.rootTop, find, Dcache.walkDown]
  | @child path outer name clear here =>
    obtain ⟨e, foundE, parent⟩ := up_child found
    have above : above ((path ++ [name]) :: outer) = path :: outer := by
      cases outer <;> simp [above]
    rw [above, foundE]
    simp [Dcache.up, parent]
  | @mounted path outer name clear here =>
    cases point : s.find ((path ++ [name]) :: outer) with
    | none => simp [find, point] at found
    | some t =>
      rw [find_mounted point] at found
      obtain ⟨liveD, top, _, back⟩ := agrees.mountsOk t d (agrees.find_live point) found
      obtain ⟨e, foundE, parent⟩ := up_child point
      simp [above, foundE, Dcache.up, top, back, parent]

end Agrees

/-- No entry cached along a path carries a mount. -/
def NoMountAlong (s : Dcache Fs N) : Nat → List Name → Prop
  | _, [] => True
  | d, name :: rest => ∀ c ∈ s.lookupDentry d name, s.mounts c = none ∧ NoMountAlong s c rest

/-- A search that meets no mount ends at what the path means, or fails as it does. -/
theorem search_resolves {node} (path : List Name) (reached : Reached B fs node ctx s)
    (unmounted : s.mounts ctx.current = none) (plain : NoMountAlong s ctx.current path) :
    (B.resolve fs node path = none ∧ (s.search B fs path node ctx).1 = none) ∨
    ∃ found ctx', B.resolve fs node path = some found ∧
      (s.search B fs path node ctx).1 = some ctx' ∧
      Reached B fs found ctx' (s.search B fs path node ctx).2 ∧
      (s.search B fs path node ctx).2.mounts ctx'.current = none := by
  induction path generalizing s ctx node with
  | nil => exact .inr ⟨node, ctx, rfl, rfl, reached, unmounted⟩
  | cons name rest ih =>
    unfold Dcache.search
    cases held : B.child fs node name with
    | none => exact .inl ⟨by simp [Backends.resolve, foldlM_cons, held], rfl⟩
    | some below =>
      have resolves : B.resolve fs node (name :: rest) = B.resolve fs below rest := by
        simp [Backends.resolve, foldlM_cons, held]
      rw [resolves]
      unfold onSearchSegment
      cases found : s.lookupDentry ctx.current name with
      | some c =>
        obtain ⟨free, along⟩ := plain c found
        dsimp only
        rw [free]
        exact ih (reached.hit held found) free along
      | none =>
        have fresh : (s.allocDentry (some ctx.current) name ctx.sb (some below)).mounts s.next =
            none := by
          simp [allocDentry]
        have notNext := reached.agrees.live_ne_next reached.live
        dsimp only
        rw [fresh]
        apply ih (reached.miss held found) fresh
        cases rest with
        | nil => trivial
        | cons next rest =>
          intro c bad
          rw [lookup_childless (by simp [allocDentry, notNext.symm])] at bad
          cases bad

/-- The path of a directory can be rebuilt: 32 names at most, and room for them in the buffer. -/
def Fits (path : List Name) : Prop := path.length ≤ 32 ∧ (path.foldl keepName ([], 0)).1 = path

instance (path : List Name) : Decidable (Fits path) := inferInstanceAs (Decidable (_ ∧ _))

def NoDots (path : List Name) : Prop := ∀ name ∈ path, name ≠ ['.'] ∧ name ≠ ['.', '.']

instance (path : List Name) : Decidable (NoDots path) :=
  inferInstanceAs (Decidable (∀ name ∈ _, _))

/-- Where the lookup of the path leaves the cache of a file system, no dots are left in it and
the directory's own path fits. -/
def Manageable (s : Dcache Fs N) : List Name → Nat → Prop
  | [], _ => True
  | component :: rest, d =>
    if component = ['.'] then Manageable s rest d
    else if component = ['.', '.'] then Manageable s rest (s.up d)
    else
      match s.lookupDentry d component with
      | some c => Manageable s rest (s.cross c)
      | none => s.driver (s.sb d) = .rootfs ∨ NoDots rest ∧ Fits (s.pathOf d)

instance Manageable.decide [DecidableEq Fs] (s : Dcache Fs N) :
    (path : List Name) → DecidablePred (Manageable s path)
  | [], _ => isTrue trivial
  | _ :: rest, _ => by
    have := Manageable.decide s rest
    unfold Manageable
    repeat' split
    all_goals infer_instance

/-- A walk inside one file system that meets no dots and no mount. -/
theorem World.walk_inside (W : World Fs) (mounted : W.mount outer = some fs)
    (inner : outer ≠ []) (path : List Name) :
    ∀ p, (B.resolve fs (B.root fs) p).isSome → NoDots path →
    (∀ q, q <+: path → q ≠ [] → W.mount ((p ++ q) :: outer) = none) →
      path.foldlM (W.step B) (p :: outer) =
      if (B.resolve fs (B.root fs) (p ++ path)).isSome then some ((p ++ path) :: outer)
      else none := by
  have present : ∀ p, W.present B (p :: outer) = (B.resolve fs (B.root fs) p).isSome := by
    intro p
    cases outer with
    | nil => exact absurd rfl inner
    | cons o outer => simp [present, mounted]
  induction path with
  | nil =>
    intro p here _ _
    simp [here]
  | cons name rest ih =>
    intro p here plain free
    have dots := plain name (by simp)
    have step : W.step B (p :: outer) name =
        if (B.resolve fs (B.root fs) (p ++ [name])).isSome then some ((p ++ [name]) :: outer)
            else none := by
      have unmounted := free [name] (by simp) (by simp)
      simp [step, dots, below, present, cross, unmounted]
    rw [foldlM_cons, step]
    split
    · rename_i held
      have next := ih (p ++ [name]) held (fun n member => plain n (by simp [member]))
        (fun q isPrefix notNil => by
          rw [append_assoc]
          exact free ([name] ++ q) (by simpa using isPrefix) (by simp))
      rw [append_assoc] at next
      exact next
    · rename_i missing
      simp only [Bool.not_eq_true, isSome_eq_false_iff, isNone_iff_eq_none] at missing
      have gone : B.resolve fs (B.root fs) (p ++ name :: rest) = none := by
        rw [show p ++ name :: rest = (p ++ [name]) ++ rest by simp, Backends.resolve_append,
          missing]
        rfl
      simp [gone]

namespace Agrees

theorem noMountAlong (agrees : Agrees B s)
    (missed : s.lookupDentry d component = none) :
    ∀ (p q : List Name) (e : Nat), s.find (q :: outer) = some e →
    s.walkDown e p = some d → (∀ x, x <+: p → s.world.mount ((q ++ x) :: outer) = none) →
    NoMountAlong s e (p ++ component :: rest) := by
  intro p
  induction p with
  | nil =>
    rintro q e _ ⟨⟩ _ c bad
    rw [missed] at bad
    cases bad
  | cons name p ih =>
    intro q e found down free c next
    have foundC : s.find ((q ++ [name]) :: outer) = some c := by
      rw [find_snoc, found]
      exact next
    have nothing := free [name] (by simp)
    simp only [Dcache.world, foundC, bind_some] at nothing
    refine ⟨agrees.mounts_none (agrees.find_live foundC) nothing, ?_⟩
    apply ih (q ++ [name]) c foundC
    · simpa [Dcache.walkDown, show s.lookupDentry e name = some c from next] using down
    · intro x isPrefix
      rw [append_assoc]
      exact free ([name] ++ x) (by simpa using isPrefix)

/-- A component that is not cached: the file system answers for the rest of the path. -/
theorem delegate_walk (agrees : Agrees B s) (found : s.find place = some d)
    (clear : Clear s.world place) {component}
    (dots : component ≠ ['.'] ∧ component ≠ ['.', '.'])
    (missed : s.lookupDentry d component = none)
    (manageable : s.driver (s.sb d) = .rootfs ∨ NoDots rest ∧ Fits (s.pathOf d)) :
    (s.delegate B d (component :: rest)).1.map (s.delegate B d (component :: rest)).2.identity =
      ((component :: rest).foldlM (s.world.step B) place).map (s.world.identity B) := by
  cases place with
  | nil => cases found
  | cons path outer =>
    have uncached : ∀ q, q <+: component :: rest → q ≠ [] →
        s.find ((path ++ q) :: outer) = none := by
      intro q isPrefix notNil
      cases q with
      | nil => exact absurd rfl notNil
      | cons first q =>
        obtain ⟨rfl, _⟩ := cons_prefix_cons.mp isPrefix
        rw [find_append, found]
        simp [Dcache.walkDown, missed]
    cases outer with
    | nil =>
      have driver := agrees.find_rootfs found
      have gone := uncached [component] (by simp) (by simp)
      have stops : s.world.step B [path] component = none := by
        simp [World.step, dots, World.below, World.present, Dcache.world, gone]
      simp [Dcache.delegate, driver, foldlM_cons, stops]
    | cons o outer =>
      obtain ⟨r, fs, foundR, liveR, top, down, mount, driver, node⟩ := agrees.find_within found
      obtain ⟨live, depth, climbs, names⟩ := agrees.toWf.walkDown liveR top down
      rw [driver] at manageable
      obtain ⟨plain, short, kept⟩ := manageable.resolve_left (by simp)
      have ownPath : s.pathOf d = path := by
        rw [pathOf, climbs d depth, names d depth, reverse_reverse]
      rw [ownPath] at short kept
      have rebuilt : s.innerPath (s.mountRoot d d) d = path := by
        rw [climbs d depth, innerPath, names 32 short, reverse_reverse]
        exact kept
      have reached := agrees.reached_root live driver
      rw [climbs d depth] at reached rebuilt
      have walks := s.world.walk_inside (B := B) mount (by simp) (component :: rest) path
        (by
          rw [← node]
          exact agrees.nodeIn d fs live driver)
        (by
          intro name member
          rcases mem_cons.mp member with rfl | later
          · exact dots
          · exact plain name later)
        (by
          intro q isPrefix notNil
          simp [Dcache.world, uncached q isPrefix notNil])
      have along : NoMountAlong s r (path ++ component :: rest) :=
        agrees.noMountAlong missed path [] r foundR down (clear.prefix_free path (o :: outer) rfl)
      rw [walks]
      simp only [Dcache.delegate, driver, climbs d depth, rebuilt]
      rcases search_resolves (path ++ component :: rest) reached
          (agrees.unstacked r liveR top) along with
        ⟨gone, failed⟩ | ⟨node, ctx', holds, ends, reached', free⟩
      · generalize s.search B fs _ _ _ = result at *
        obtain ⟨ctx, mid⟩ := result
        cases failed
        simp [gone]
      · generalize s.search B fs _ _ _ = result at *
        obtain ⟨ctx, mid⟩ := result
        cases ends
        dsimp only at reached' free
        simp [holds, Dcache.cross, free, Dcache.identity, reached'.driver, reached'.node,
          World.identity, mount]

/-- The loop of the lookup is the walk. -/
theorem indexFrom_walk (agrees : Agrees B s) (path : List Name)
    (short : ∀ c ∈ path, c.length < vfsMaxFilename) :
    ∀ (place : Place) (d : Nat), s.find place = some d → Clear s.world place →
      Manageable s path d →
    (s.indexFrom B path d).1.map (s.indexFrom B path d).2.identity =
      (path.foldlM (s.world.step B) place).map (s.world.identity B) := by
  induction path with
  | nil =>
    intro place d found clear _
    have unmounted : s.mounts d = none := by
      cases place with
      | nil => cases found
      | cons p outer =>
        have nothing := clear.prefix_free p outer rfl p prefix_rfl
        simp only [Dcache.world, found, bind_some] at nothing
        exact agrees.mounts_none (agrees.find_live found) nothing
    simp [Dcache.indexFrom, Dcache.cross, unmounted, agrees.identity_find found]
  | cons component rest ih =>
    intro place d found clear manageable
    have fits := short component (by simp)
    have whole : component.take (vfsMaxFilename - 1) = component := take_of_length_le (by omega)
    have shortRest : ∀ c ∈ rest, c.length < vfsMaxFilename := fun c member =>
      short c (by simp [member])
    unfold Dcache.indexFrom
    unfold Manageable at manageable
    simp only [whole]
    by_cases dot : component = ['.']
    · simp only [if_pos dot] at manageable ⊢
      rw [ih shortRest place d found clear manageable, foldlM_cons]
      simp [World.step, dot]
    by_cases dotDot : component = ['.', '.']
    · simp only [if_neg dot, if_pos dotDot] at manageable ⊢
      rw [ih shortRest (World.above place) (s.up d) (agrees.find_above clear found) clear.above
        manageable, foldlM_cons]
      simp [World.step, dotDot]
    simp only [if_neg dot, if_neg dotDot] at manageable ⊢
    cases next : s.lookupDentry d component with
    | none =>
      rw [next] at manageable
      exact agrees.delegate_walk found clear ⟨dot, dotDot⟩ next manageable
    | some c =>
      rw [next] at manageable
      cases place with
      | nil => cases found
      | cons p outer =>
        have foundC : s.find ((p ++ [component]) :: outer) = some c := by
          rw [find_snoc, found]
          exact next
        have liveC := agrees.find_live foundC
        have steps :
            s.world.step B (p :: outer) component =
              some (s.world.cross ((p ++ [component]) :: outer)) := by
          have present := agrees.find_present foundC
          simp [World.step, dot, dotDot, World.below, present]
        rw [foldlM_cons, steps]
        cases mounted : s.mounts c with
        | none =>
          have nothing : s.world.mount ((p ++ [component]) :: outer) = none := by
            simp [Dcache.world, foundC, mountedFs, mounted]
          have stays : s.world.cross ((p ++ [component]) :: outer) =
              (p ++ [component]) :: outer := by
            simp [World.cross, nothing]
          rw [stays]
          simp only [Dcache.cross, mounted, getD_none] at manageable ⊢
          exact ih shortRest _ c foundC (.child clear nothing) manageable
        | some r =>
          obtain ⟨fs, _, here⟩ := agrees.mountedFs_some liveC mounted
          obtain ⟨liveR, top, _, _⟩ := agrees.mountsOk c r liveC mounted
          have foundR : s.find ([] :: (p ++ [component]) :: outer) = some r := by
            rw [find_mounted foundC, mounted]
          have nothing : s.world.mount ([] :: (p ++ [component]) :: outer) = none := by
            simp [Dcache.world, foundR, mountedFs, agrees.unstacked r liveR top]
          have crosses : s.world.cross ((p ++ [component]) :: outer) =
              [] :: (p ++ [component]) :: outer := by
            simp [World.cross, Dcache.world, foundC, here]
          rw [crosses]
          simp only [Dcache.cross, mounted, getD_some] at manageable ⊢
          exact ih shortRest _ r foundR (.mounted clear nothing) manageable

/-- An absolute path is looked up as it is walked. -/
theorem answer_walk (agrees : Agrees B s) {path} (absolute : path.head? = some '/')
    (short : Short path) (manageable : Manageable s (components path) vfsRoot) :
    s.answer B path = (s.world.walk B path).map (s.world.identity B) := by
  have found : s.find [[]] = some vfsRoot := rfl
  have unmounted : s.world.mount [[]] = none := by
    simp [Dcache.world, found, mountedFs, agrees.unstacked vfsRoot agrees.rootLive agrees.rootTop.1]
  have notNil : path ≠ [] := by
    rintro rfl
    cases absolute
  have start : s.world.cross [[]] = [[]] := by simp [World.cross, unmounted]
  simp only [answer, Dcache.index, if_neg notNil, startOf, absolute, if_true, walk, start]
  exact agrees.indexFrom_walk (components path) short [[]] vfsRoot found
    (.root unmounted) manageable

end Agrees

theorem Grows.lookup (grows : Grows s s') (wf : Wf s) (live : s.live d) {name}
    (found : s.lookupDentry d name = some c) : s'.lookupDentry d name = some c := by
  obtain ⟨new, more⟩ := grows.children d live
  have same : ∀ x ∈ s.children d, s'.name x = s.name x := fun x member =>
    (grows.same x (wf.childOk d x live member).1).2.1
  have here : (s.children d).find? (fun child => s'.name child = name) = some c := by
    rw [← found]
    apply find?_congr
    intro x member
    rw [same x member]
  simp [lookupDentry, ← more, find?_append, here]

theorem Grows.walkDown (grows : Grows s s') (wf : Wf s) : ∀ {r d : Nat}, s.live r →
    s.walkDown r path = some d → s'.walkDown r path = some d := by
  induction path with
  | nil => exact fun _ found => found
  | cons name rest ih =>
    intro r d live found
    obtain ⟨c, next, below⟩ := bind_eq_some_iff.mp found
    have liveC := (wf.lookup_live live next).1
    simp only [Dcache.walkDown, grows.lookup wf live next, bind_some]
    exact ih liveC below

/-- Entries found before are found again. -/
theorem Grows.find (grows : Grows s s') (wf : Wf s) :
    ∀ {place : Place} {d : Nat}, s.find place = some d →
    s'.find place = some d := by
  intro place
  induction place with
  | nil => exact fun found => found
  | cons path outer ih =>
    intro d found
    rw [find_cons] at found ⊢
    obtain ⟨r, atR, down⟩ := bind_eq_some_iff.mp found
    have atR' : rootAt s' outer = some r := by
      cases outer with
      | nil => exact atR
      | cons o outer =>
        obtain ⟨t, foundT, mounted⟩ := bind_eq_some_iff.mp atR
        simp only [rootAt, ih foundT, bind_some]
        rw [(grows.same t (wf.find_live foundT)).2.2.2.2.1]
        exact mounted
    rw [atR', bind_some]
    exact grows.walkDown wf (wf.rootAt_top atR).1 down

namespace Agrees

/-- Entries in use before are where they were. -/
theorem walkDown_old (agrees : Agrees B s) (wf' : Wf s') (grows : Grows s s') (liveR' : s'.live r)
    (top' : s'.parent r = none) : ∀ {d : Nat}, s'.walkDown r path = some d → s.live d →
      s.live r ∧ s.walkDown r path = some d := by
  induction path using reverseRecOn with
  | nil =>
    rintro d ⟨⟩ live
    exact ⟨live, rfl⟩
  | append_singleton path name ih =>
    intro d found live
    rw [walkDown_snoc] at found ⊢
    obtain ⟨e, foundE, next⟩ := bind_eq_some_iff.mp found
    have liveE' := (wf'.walkDown liveR' top' foundE).1
    obtain ⟨_, parent, named, _⟩ := wf'.lookup_live liveE' next
    obtain ⟨sameParent, sameName, _⟩ := grows.same d live
    rw [sameParent] at parent
    rw [sameName] at named
    obtain ⟨liveE, _, listed⟩ := agrees.parentOk d e live parent
    obtain ⟨liveR, down⟩ := ih foundE liveE
    refine ⟨liveR, ?_⟩
    rw [down, bind_some]
    cases first : s.lookupDentry e name with
    | none =>
      have := find?_eq_none.mp first d listed
      simp [named] at this
    | some c =>
      obtain ⟨_, _, namedC, listedC⟩ := agrees.lookup_live liveE first
      rw [agrees.unique e liveE c listedC d listed (namedC.trans named.symm)]

theorem find_old (agrees : Agrees B s) (wf' : Wf s') (grows : Grows s s') :
    ∀ {place : Place} {d : Nat},
    s'.find place = some d → s.live d → s.find place = some d := by
  intro place
  induction place with
  | nil => exact fun found _ => found
  | cons path outer ih =>
    intro d found live
    rw [find_cons] at found ⊢
    obtain ⟨r, atR', down'⟩ := bind_eq_some_iff.mp found
    obtain ⟨liveR', top'⟩ := wf'.rootAt_top atR'
    obtain ⟨liveR, down⟩ := agrees.walkDown_old wf' grows liveR' top' down' live
    have atR : rootAt s outer = some r := by
      cases outer with
      | nil => exact atR'
      | cons o outer =>
        obtain ⟨t, foundT, mounted⟩ := bind_eq_some_iff.mp atR'
        obtain ⟨_, _, notRoot, back⟩ := wf'.mountsOk t r (wf'.find_live foundT) mounted
        obtain ⟨sameParent, _, _, _, _, sameOn⟩ := grows.same r liveR
        rw [sameParent] at top'
        rw [sameOn] at back
        obtain ⟨_, _, _, t', on, liveT, _, forth⟩ := agrees.tops r liveR top' notRoot
        have same : t' = t := by
          rw [back] at on
          cases on
          rfl
        subst same
        simp only [rootAt, ih foundT liveT, bind_some, forth]
    rw [atR, bind_some]
    exact down

/-- A lookup changes neither the file systems nor the mounts. -/
theorem world_behind (agrees : Agrees B s) (agrees' : Agrees B s') (behind : Behind s s') :
    s'.world = s.world := by
  have grows := behind.toGrows
  have mountedFs : ∀ d, s.live d → s'.mountedFs d = s.mountedFs d := by
    intro d live
    have same := (grows.same d live).2.2.2.2.1
    unfold Dcache.mountedFs
    rw [same]
    cases mounted : s.mounts d with
    | none => rfl
    | some r =>
      have liveR := (agrees.mountsOk d r live mounted).1
      simp only [bind_some, grows.driver, (grows.same r liveR).2.2.1]
  have has : s'.world.has = s.world.has := by
    funext path
    cases found : s.find [path] with
    | some d => simp [Dcache.world, found, grows.find agrees.toWf found]
    | none =>
      cases found' : s'.find [path] with
      | none => simp [Dcache.world, found, found']
      | some d =>
        have live' := agrees'.find_live found'
        rcases behind.hidden d live' with live | ⟨fs, driver⟩
        · rw [agrees.find_old agrees'.toWf grows found' live] at found
          cases found
        · rw [agrees'.find_rootfs found'] at driver
          cases driver
  have mount : s'.world.mount = s.world.mount := by
    funext place
    cases found : s.find place with
    | some d =>
      simp only [Dcache.world, found, grows.find agrees.toWf found, bind_some]
      exact mountedFs d (agrees.find_live found)
    | none =>
      cases found' : s'.find place with
      | none => simp [Dcache.world, found, found']
      | some d =>
        rcases grows.fresh d (agrees'.find_live found') with live | ⟨_, unmounted, _⟩
        · rw [agrees.find_old agrees'.toWf grows found' live] at found
          cases found
        · simp [Dcache.world, found, found', Dcache.mountedFs, unmounted]
  exact World.ext has mount

theorem index_world (agrees : Agrees B s) (path : List Char) :
    (s.index B path none).2.world = s.world := by
  obtain ⟨agrees', behind⟩ := agrees.index path none rfl
  exact agrees.world_behind agrees' behind

end Agrees

/-- Two states of the cache with the same file systems and mounts give one answer for a path,
the one of the walk over its components. -/
theorem lookup_independent_of_cache (B : Backends Fs N) {events₁ events₂ : List (VfsEvent Fs)}
    {s₁ s₂ : Dcache Fs N}
    (run₁ : Run (Run.Guarded (Orderly B) (fun s e => e.exec B s))
      (initialized Fs N) events₁ s₁)
    (run₂ : Run (Run.Guarded (Orderly B) (fun s e => e.exec B s))
      (initialized Fs N) events₂ s₂)
    (same : s₁.world = s₂.world) {path : List Char} (absolute : path.head? = some '/')
    (short : Short path) (manageable₁ : Manageable s₁ (components path) vfsRoot)
    (manageable₂ : Manageable s₂ (components path) vfsRoot) :
    s₁.answer B path = (s₁.world.walk B path).map (s₁.world.identity B) ∧
      s₂.answer B path = s₁.answer B path := by
  have agrees₁ : Agrees B s₁ :=
    run₁.preserves (fun _ _ _ agrees step => agrees.step step.1 step.2) Agrees.initialized
  have agrees₂ : Agrees B s₂ :=
    run₂.preserves (fun _ _ _ agrees step => agrees.step step.1 step.2) Agrees.initialized
  have first := agrees₁.answer_walk absolute short manageable₁
  refine ⟨first, ?_⟩
  rw [agrees₂.answer_walk absolute short manageable₂, first, same]

/-- A disk with a chain of directories `d` and a file whose name just fits. -/
def chainDisk : Backends Unit Nat where
  root _ := 0
  child _ node name :=
    if name = ['d'] then some (node + 1)
    else if node = 0 ∧ name = List.replicate 63 'a' then some 100
    else none

theorem warmed (warm : List Char) {s}
    (run : Run (Run.Guarded (Orderly chainDisk) (fun s e => e.exec chainDisk s))
      (initialized Unit Nat) [.mount () "/m".toList true true] s) (short : Short warm) :
    Run (Run.Guarded (Orderly chainDisk) (fun s e => e.exec chainDisk s)) (initialized Unit Nat)
        [.mount () "/m".toList true true, .lookup warm none] (s.index chainDisk warm none).2 ∧
      (s.index chainDisk warm none).2.world = s.world := by
  have agrees : Agrees chainDisk s :=
    run.preserves (fun _ _ _ agrees step => agrees.step step.1 step.2) Agrees.initialized
  exact ⟨run.snoc ⟨short, by simp [VfsEvent.exec]⟩, agrees.index_world warm⟩

/-- `/m` and so many directories `d`. -/
def chainPath (depth : Nat) : List Char := "/m".toList ++ (List.replicate depth "/d".toList).flatten

/-- The cache decides the answer: for a name cut to fit, for dots left to the file system, and
below more directories than the lookup can rebuild. -/
theorem lookup_depends_on_cache :
    ∃ s, Run (Run.Guarded (Orderly chainDisk) (fun s e => e.exec chainDisk s))
      (initialized Unit Nat)
        [.mount () "/m".toList true true] s ∧
      (∀ warm ∈ ["/m/".toList ++ List.replicate 63 'a', "/m/d".toList, chainPath 33],
        Run (Run.Guarded (Orderly chainDisk) (fun s e => e.exec chainDisk s)) (initialized Unit Nat)
            [.mount () "/m".toList true true, .lookup warm none] (s.index chainDisk warm none).2 ∧
          (s.index chainDisk warm none).2.world = s.world) ∧
      s.answer chainDisk ("/m/".toList ++ List.replicate 64 'a') = none ∧
      (s.index chainDisk ("/m/".toList ++ List.replicate 63 'a') none).2.answer chainDisk
        ("/m/".toList ++ List.replicate 64 'a') = some (.node () (some 100)) ∧
      s.answer chainDisk "/m/d/../../m".toList = none ∧
      (s.index chainDisk "/m/d".toList none).2.answer chainDisk "/m/d/../../m".toList =
      some (.node () (some 0)) ∧
      s.answer chainDisk (chainPath 34) = some (.node () (some 34)) ∧
      (s.index chainDisk (chainPath 33) none).2.answer chainDisk (chainPath 34) =
      some (.node () (some 33)) := by
  have reached : ∃ s, Run (Run.Guarded (Orderly chainDisk) (fun s e => e.exec chainDisk s))
    (initialized Unit Nat)
      [.mount () "/m".toList true true] s ∧
      s.answer chainDisk ("/m/".toList ++ replicate 64 'a') = none ∧
      (s.index chainDisk ("/m/".toList ++ replicate 63 'a') none).2.answer chainDisk
        ("/m/".toList ++ replicate 64 'a') = some (.node () (some 100)) ∧
      s.answer chainDisk "/m/d/../../m".toList = none ∧
      (s.index chainDisk "/m/d".toList none).2.answer chainDisk "/m/d/../../m".toList =
      some (.node () (some 0)) ∧
      s.answer chainDisk (chainPath 34) = some (.node () (some 34)) ∧
      (s.index chainDisk (chainPath 33) none).2.answer chainDisk (chainPath 34) =
          some (.node () (some 33)) :=
    Run.exists_guarded (by decide +kernel)
  obtain ⟨s, run, answers⟩ := reached
  refine ⟨s, run, ?_, answers⟩
  intro warm member
  apply warmed warm run
  revert warm
  decide +kernel

theorem lookup_independent_of_cache_warm :
    ∃ s, Run (Run.Guarded (Orderly chainDisk) (fun s e => e.exec chainDisk s))
      (initialized Unit Nat)
        [.mount () "/m".toList true true] s ∧ s.answer chainDisk "/m/d/d".toList =
        some (.node () (some 2)) ∧
      (s.index chainDisk "/m/d".toList none).2.answer chainDisk "/m/d/d".toList =
      some (.node () (some 2)) := by
  have reached : ∃ s, Run (Run.Guarded (Orderly chainDisk) (fun s e => e.exec chainDisk s))
    (initialized Unit Nat)
      [.mount () "/m".toList true true] s ∧ s.answer chainDisk "/m/d/d".toList =
      some (.node () (some 2)) ∧
      Manageable s (components "/m/d/d".toList) vfsRoot ∧
      Manageable (s.index chainDisk "/m/d".toList none).2 (components "/m/d/d".toList) vfsRoot :=
    Run.exists_guarded (by decide +kernel)
  obtain ⟨s, run, cold, manageable, manageableWarm⟩ := reached
  obtain ⟨run', same⟩ := warmed "/m/d".toList run (by decide)
  refine ⟨s, run, cold, ?_⟩
  rw [(lookup_independent_of_cache chainDisk run run' same.symm (by decide)
    (by decide) manageable manageableWarm).2]
  exact cold

end Mecocoa.Vfs
