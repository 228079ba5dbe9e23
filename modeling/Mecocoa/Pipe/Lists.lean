import Mecocoa.Pipe.Channel

/-! # The wait lists of pipes

A thread is in the list of one end of one channel, or in a list that was taken off and is
being walked by some thread, or in none.  All these lists use the same links.
-/

namespace Mecocoa.Pipe

open List Waiters Sum Function

open Lib (Chains)
open Lib.LinkedQueues (setLink setLink_apply linked_iff Forward forward_nil forward_cons)
open Lib.Chains (Holds)
open Function (update update_self update_of_ne)

/-- The list of an end, or the one that a thread walks. -/
abbrev ListKey (m n : Nat) := (Fin m × Side) ⊕ Fin n

/-- All lists; `walks` are the heads of those that are walked. -/
def Waiters.chains (w : Waiters m n) (walks : Fin n → Option (Fin n)) :
    Chains (ListKey m n) (Fin n) :=
  ⟨Sum.elim w.lists.head walks, w.lists.next⟩

structure Linked (w : Waiters m n) (walks : Fin n → Option (Fin n))
    (q : ListKey m n → List (Fin n)) : Prop where
  holds : Holds (w.chains walks) q
  prev : ∀ key, Forward w.prev (q (.inl key)).reverse
  channel : ∀ t c, w.channel t = some c ↔ ∃ side, t ∈ q (.inl (c, side))

section Waiters

variable {w : Waiters m n} {q : ListKey m n → List (Fin n)}

theorem linked_empty : Linked (.empty : Waiters m n) (fun _ => none) fun _ => [] where
  holds := by
    refine ⟨fun _ => forward_nil, ?_, fun _ => nodup_nil, by simp⟩
    rintro (key | t) <;> rfl
  prev := fun _ => forward_nil
  channel := by simp [empty]

/-- Which lists have a member after the list of one end was replaced. -/
theorem mem_update_inl :
    t ∈ update q (.inl key) l (.inl k) ↔ if k = key then t ∈ l else t ∈ q (.inl k) := by
  split
  · rename_i same
    rw [same, update_self]
  · rename_i other
    rw [update_of_ne (fun is => other (inl.inj is))]

theorem Linked.clearWaiter (linked : Linked w walks q) (absent : ∀ key, t ∉ q key) :
    Linked (w.pipeClearWaiter t) walks q where
  holds := linked.holds.setNext absent none
  prev := by
    intro key
    apply (linked.prev key).congr
    intro b there
    exact update_of_ne (ne_of_mem_of_not_mem (mem_reverse.mp there) (absent _)) ..
  channel := by
    intro x c
    by_cases same : x = t
    · subst same
      simp [pipeClearWaiter, absent]
    · rw [← linked.channel x c]
      exact iff_of_eq (congrArg (· = some c) (update_of_ne same ..))

theorem pipeAddWaiter_next (w : Waiters m n) (key : Fin m × Side) (t : Fin n) :
    (w.pipeAddWaiter key t).lists.next = update w.lists.next t (w.lists.head key) :=
  update_idem ..

theorem pipeAddWaiter_channel (w : Waiters m n) (key : Fin m × Side) (t : Fin n) :
    (w.pipeAddWaiter key t).channel = update w.channel t (some key.1) :=
  update_idem ..

theorem pipeAddWaiter_prev (w : Waiters m n) (key : Fin m × Side) (t : Fin n) :
    (w.pipeAddWaiter key t).prev = setLink (update w.prev t none) (w.lists.head key) (some t) :=
  rfl

section Add

variable (linked : Linked w walks q) (absent : ∀ key, t ∉ q key) (key : Fin m × Side)

include linked absent

theorem Linked.add_holds :
    Holds ((w.pipeAddWaiter key t).chains walks) (update q (.inl key) (t :: q (.inl key))) := by
  have others : ∀ k, ∀ b ∈ q k, (w.pipeAddWaiter key t).lists.next b = w.lists.next b := by
    intro k b there
    rw [pipeAddWaiter_next, update_of_ne (ne_of_mem_of_not_mem there (absent k))]
  apply linked.holds.replace
  · intro b there k elsewhere
    rcases mem_cons.mp there with rfl | old
    · exact absurd elsewhere (absent k)
    · exact linked.holds.apart k _ b elsewhere old
  · refine forward_cons.mpr ⟨?_, (linked.holds.link (.inl key)).congr (others _)⟩
    change (w.pipeAddWaiter key t).lists.next t = _
    rw [pipeAddWaiter_next, update_self]
    exact linked.holds.head (.inl key)
  · exact nodup_cons.mpr ⟨absent _, linked.holds.nodup _⟩
  · exact update_self ..
  · rintro (k | x) other
    · exact update_of_ne (fun same => other (congrArg inl same)) ..
    · rfl
  · exact fun k _ => others k

theorem Linked.add_prev (k : Fin m × Side) :
    Forward (w.pipeAddWaiter key t).prev
      (update q (.inl key) (t :: q (.inl key)) (.inl k)).reverse := by
  have apart : ∀ k, ∀ b ∈ q (.inl k), b ≠ t := fun _ b there =>
    ne_of_mem_of_not_mem there (absent _)
  have prev : ∀ b ≠ t, (w.pipeAddWaiter key t).prev b = if (q (.inl key)).head? =
      some b then some t else w.prev b := by
    intro b other
    rw [pipeAddWaiter_prev, setLink_apply, update_of_ne other,
      show w.lists.head key = _ from linked.holds.head (.inl key)]
  by_cases same : k = key
  · subst same
    rw [update_self, reverse_cons]
    refine (linked.prev k).push (nodup_reverse.mpr (linked.holds.nodup _)) ?_ fun b there => ?_
    · have other : w.lists.head k ≠ some t := fun first =>
        absent _ (mem_of_head? ((linked.holds.head (.inl k)).symm.trans first))
      rw [pipeAddWaiter_prev, setLink_apply, if_neg other, update_self]
    · rw [prev b (apart k b (mem_reverse.mp there)), getLast?_reverse]
  · rw [update_of_ne (fun is => same (inl.inj is))]
    refine (linked.prev k).congr fun b there => ?_
    have member := mem_reverse.mp there
    have notFirst : (q (.inl key)).head? ≠ some b := fun first =>
      same (inl.inj (linked.holds.apart _ _ b member (mem_of_head? first)))
    rw [prev b (apart k b member), if_neg notFirst]

theorem Linked.add_channel (b : Fin n) (c : Fin m) : (w.pipeAddWaiter key t).channel b = some c ↔
    ∃ side, b ∈ update q (.inl key) (t :: q (.inl key)) (.inl (c, side)) := by
  rw [pipeAddWaiter_channel]
  simp only [mem_update_inl]
  by_cases own : b = t
  · subst own
    rw [update_self, Option.some.injEq]
    constructor
    · rintro rfl
      exact ⟨key.2, by simp⟩
    · rintro ⟨side, there⟩
      split at there
      · rename_i same
        rw [← same]
      · exact absurd there (absent _)
  · rw [update_of_ne own, linked.channel]
    constructor
    · rintro ⟨side, there⟩
      refine ⟨side, ?_⟩
      split
      · rename_i same
        exact mem_cons_of_mem t (same ▸ there)
      · exact there
    · rintro ⟨side, there⟩
      refine ⟨side, ?_⟩
      split at there
      · rename_i same
        exact same ▸ (mem_cons.mp there).resolve_left own
      · exact there

theorem Linked.add :
    Linked (w.pipeAddWaiter key t) walks (update q (.inl key) (t :: q (.inl key))) :=
  ⟨linked.add_holds absent key, linked.add_prev absent key, linked.add_channel absent key⟩

end Add

/-! ## Taking a list off -/

/-- The list is turned round, and its members have neither channel nor member before. -/
theorem takeLoop_spec :
    ∀ (l acc : List (Fin n)) (fuel : Nat) (w : Waiters m n), l.length ≤ fuel →
    Forward w.lists.next l → Forward w.lists.next acc → (l ++ acc).Nodup →
    ∃ w', w.takeLoop fuel l.head? acc.head? = some (w', (l.reverse ++ acc).head?) ∧
      Forward w'.lists.next (l.reverse ++ acc) ∧ w'.lists.head = w.lists.head ∧
      (∀ b ∉ l, w'.lists.next b = w.lists.next b ∧ w'.prev b = w.prev b ∧
        w'.channel b = w.channel b) ∧
      ∀ b ∈ l, w'.channel b = none := by
  intro l
  induction l with
  | nil =>
    intro acc fuel w _ _ behind _
    refine ⟨w, ?_, behind, rfl, fun _ _ => ⟨rfl, rfl, rfl⟩, by simp⟩
    cases fuel <;> rfl
  | cons t l ih =>
    intro acc fuel w enough ahead behind nodup
    obtain ⟨next, rest⟩ := forward_cons.mp ahead
    have distinct := nodup_cons.mp nodup
    have notL : t ∉ l := fun there => distinct.1 (mem_append_left _ there)
    have notAcc : t ∉ acc := fun there => distinct.1 (mem_append_right _ there)
    cases fuel with
    | zero => simp at enough
    | succ fuel =>
      let w₁ : Waiters m n :=
        { w.pipeClearWaiter t with lists := (w.pipeClearWaiter t).lists.setNext t acc.head? }
      have link : w₁.lists.next = update w.lists.next t acc.head? := update_idem ..
      have keep : ∀ l' : List (Fin n), t ∉ l' → Forward w.lists.next l' →
          Forward w₁.lists.next l' := by
        intro l' absent forward
        rw [link]
        exact forward.congr fun b there => update_of_ne (ne_of_mem_of_not_mem there absent) ..
      obtain ⟨w', ran, forward, head, others, cleared⟩ :=
        ih (t :: acc) fuel w₁ (by simpa using enough) (keep l notL rest)
          (forward_cons.mpr ⟨by rw [link, update_self], keep acc notAcc behind⟩)
          (nodup_middle.mpr nodup)
      have same : ∀ b, b ≠ t → w₁.lists.next b = w.lists.next b ∧
        w₁.prev b = w.prev b ∧
          w₁.channel b = w.channel b := by
        intro b other
        exact ⟨by rw [link, update_of_ne other], update_of_ne other .., update_of_ne other ..⟩
      refine ⟨w', ?_, by simpa using forward, head, ?_, ?_⟩
      · simp only [takeLoop, head?_cons, next, reverse_cons, append_assoc, singleton_append]
        exact ran
      · intro b there
        rw [mem_cons, not_or] at there
        obtain ⟨other, notIn⟩ := there
        obtain ⟨n₁, p₁, c₁⟩ := others b notIn
        obtain ⟨n₂, p₂, c₂⟩ := same b other
        exact ⟨n₁.trans n₂, p₁.trans p₂, c₁.trans c₂⟩
      · intro b there
        rcases mem_cons.mp there with rfl | old
        · rw [(others b notL).2.2]
          exact update_self ..
        · exact cleared b old

/-- A thread takes the list of an end off, to walk it. -/
theorem Linked.take (linked : Linked w walks q) (t : Fin n) (key : Fin m × Side) :
    ∃ w' head, w.pipeTakeWaitList key = some (w', head) ∧
      Linked w' (update walks t head)
      (update (update q (.inl key) []) (.inr t) (q (.inl key)).reverse) := by
  have enough : (q (.inl key)).length ≤ 2 * n + 1 := by
    have few := linked.holds.length_le (.inl key)
    rw [Fintype.card_fin] at few
    omega
  obtain ⟨w', ran, forward, head, others, cleared⟩ :=
    takeLoop_spec (q (.inl key)) [] (2 * n + 1) w enough
    (linked.holds.link (.inl key)) forward_nil (by simpa using linked.holds.nodup (.inl key))
  rw [append_nil] at ran forward
  have first : w.lists.head key = (q (.inl key)).head? := linked.holds.head (.inl key)
  have elsewhere : ∀ k ≠ .inl key, ∀ b ∈ q k, b ∉ q (.inl key) :=
    fun k other b there here => other (linked.holds.apart k _ b there here)
  refine ⟨{ w' with lists := w'.lists.clear key }, (q (.inl key)).reverse.head?, ?_, ?_, ?_, ?_⟩
  · unfold pipeTakeWaitList
    rw [first, show (none : Option (Fin n)) = ([] : List (Fin n)).head? from rfl, ran]
    rfl
  · -- Empty the list of the end first, then fill the one of the walker.
    have emptied :
        Holds (chains { w' with lists := w'.lists.clear key } walks) (update q (.inl key) []) := by
      apply linked.holds.replace (by simp) forward_nil nodup_nil (update_self _ _ _)
      · rintro (k | x) other
        · exact (update_of_ne (fun same => other (congrArg inl same)) ..).trans (congrFun head k)
        · rfl
      · exact fun k other b there => (others b (elsewhere k other b there)).1
    apply emptied.replace
    · intro b there k here
      rw [mem_reverse] at there
      by_cases same : k = .inl key
      · rw [same, update_self] at here
        cases here
      · rw [update_of_ne same] at here
        exact absurd there (elsewhere k same b here)
    · exact forward
    · exact nodup_reverse.mpr (linked.holds.nodup _)
    · exact update_self ..
    · rintro (k | x) other
      · rfl
      · exact update_of_ne (fun same => other (congrArg inr same)) ..
    · exact fun _ _ _ _ => rfl
  · intro k
    rw [update_of_ne (by simp)]
    by_cases same : k = key
    · rw [same, update_self]
      exact forward_nil
    · have other : inl k ≠ (inl key : ListKey m n) := fun is => same (inl.inj is)
      rw [update_of_ne other]
      exact (linked.prev k).congr fun b there =>
        (others b (elsewhere _ other b (mem_reverse.mp there))).2.1
  · intro b c
    have off : ∀ side, b ∈ update (update q (.inl key) []) (.inr t) (q (.inl key)).reverse
      (.inl (c, side)) ↔
        (c, side) ≠ key ∧ b ∈ q (.inl (c, side)) := by
      intro side
      rw [update_of_ne (by simp), mem_update_inl]
      split
      · rename_i same
        simp [same]
      · rename_i other
        simp [other]
    simp only [off]
    by_cases member : b ∈ q (.inl key)
    · change w'.channel b = some c ↔ _
      rw [cleared b member]
      refine ⟨fun is => (nomatch is), ?_⟩
      rintro ⟨side, other, there⟩
      exact absurd (inl.inj (linked.holds.apart _ _ b there member)) other
    · change w'.channel b = some c ↔ _
      rw [(others b member).2.2, linked.channel]
      refine ⟨fun ⟨side, there⟩ => ⟨side, fun same => member (same ▸ there), there⟩,
        ?_⟩
      rintro ⟨side, -, there⟩
      exact ⟨side, there⟩

/-- A walker goes past the first of its list. -/
theorem Linked.walk (linked : Linked w walks q) (here : walks t = some first) :
    ∃ rest, q (.inr t) = first :: rest ∧
      Linked { w with lists := w.lists.setNext first none } (update walks t (w.lists.next first))
        (update q (.inr t) rest) := by
  have head : (q (.inr t)).head? = some first := (linked.holds.head (.inr t)).symm.trans here
  obtain ⟨rest, contents⟩ := head?_eq_some_iff.mp head
  have nodup := contents ▸ linked.holds.nodup (.inr t)
  have link := contents ▸ linked.holds.link (.inr t)
  have alone : ∀ k, first ∈ q k → k = .inr t := fun k there =>
    linked.holds.apart k _ first there (by simp [contents])
  have others : ∀ b, b ≠ first → update w.lists.next first none b = w.lists.next b :=
    fun b other => update_of_ne other ..
  refine ⟨rest, contents, ?_, ?_, ?_⟩
  · apply linked.holds.replace
    · exact fun b there k elsewhere =>
        linked.holds.apart k _ b elsewhere (by simp [contents, there])
    · refine (forward_cons.mp link).2.congr fun b there => others b ?_
      exact ne_of_mem_of_not_mem there (nodup_cons.mp nodup).1
    · exact (nodup_cons.mp nodup).2
    · exact (update_self ..).trans (forward_cons.mp link).1
    · rintro (k | x) other
      · rfl
      · exact update_of_ne (fun same => other (congrArg inr same)) ..
    · intro k other b there
      exact others b fun same => other (alone k (same ▸ there))
  · intro k
    exact linked.prev k
  · intro b c
    exact linked.channel b c

/-! ## Taking one thread out -/

theorem unlinkWaiter_next (key : Fin m × Side) (other : b ≠ t) :
    (w.unlinkWaiter key t).lists.next b = if w.prev t = some b then w.lists.next t
      else w.lists.next b := by
  unfold unlinkWaiter
  cases w.prev t with
  | none => exact update_of_ne other ..
  | some before =>
    exact (update_of_ne other ..).trans (setLink_apply w.lists.next (some before) _ b)

theorem unlinkWaiter_prev (loose : w.prev t ≠ some t) (key : Fin m × Side) (other : b ≠ t) :
    (w.unlinkWaiter key t).prev b = if w.lists.next t = some b then w.prev t else w.prev b := by
  unfold unlinkWaiter
  cases prev : w.prev t with
  | none => exact (update_of_ne other ..).trans (setLink_apply ..)
  | some last =>
    have apart : t ≠ last := fun same => loose (same ▸ prev)
    have kept : (w.lists.setNext last (w.lists.next t)).next t = w.lists.next t :=
      update_of_ne apart ..
    simp only [kept]
    exact (update_of_ne other ..).trans (setLink_apply ..)

/-- The list of an end without the thread. -/
theorem Linked.unlink_list {before after} (linked : Linked w walks q)
    (contents : q (.inl key) = before ++ t :: after) :
    Lib.LinkedQueues.Linked (w.unlinkWaiter key t).lists.next (w.unlinkWaiter key t).prev
      (before ++ after) ∧
      ((w.unlinkWaiter key t).lists.head key = (before ++ after).head?) ∧
      (∀ k ≠ key, (w.unlinkWaiter key t).lists.head k = w.lists.head k) ∧
      ∀ b ∉ q (.inl key), (w.unlinkWaiter key t).lists.next b = w.lists.next b ∧
        (w.unlinkWaiter key t).prev b = w.prev b := by
  have nodup := contents ▸ linked.holds.nodup (.inl key)
  have links : Lib.LinkedQueues.Linked w.lists.next w.prev (before ++ t :: after) :=
    linked_iff.mpr (contents ▸ ⟨linked.holds.link (.inl key), linked.prev key⟩)
  obtain ⟨prev, next⟩ := links before t after rfl
  have loose : w.prev t ≠ some t := by
    rw [prev]
    exact fun itself => (nodup_append.mp nodup).2.2 t (mem_of_getLast? itself) t (by simp) rfl
  have ahead : ∀ b ≠ t, (w.unlinkWaiter key t).lists.next b = _ :=
    fun b => unlinkWaiter_next key
  have back : ∀ b ≠ t, (w.unlinkWaiter key t).prev b = _ := fun b => unlinkWaiter_prev loose key
  rw [prev, next] at ahead back
  refine ⟨links.remove nodup ahead back, ?_, ?_, fun b outside => ?_⟩
  · have head : w.lists.head key = (before ++ t :: after).head? :=
      contents ▸ linked.holds.head (.inl key)
    unfold unlinkWaiter
    cases last : before.getLast? with
    | none =>
      cases getLast?_eq_none_iff.mp last
      rw [prev, last]
      exact (update_self ..).trans next
    | some b =>
      have filled : before ≠ [] := ne_nil_of_mem (mem_of_getLast? last)
      rw [head?_append_of_ne_nil _ filled] at head ⊢
      rw [prev, last]
      exact head
  · intro k other
    unfold unlinkWaiter
    cases w.prev t with
    | none => exact update_of_ne other ..
    | some b => rfl
  · rw [contents] at outside
    have other : b ≠ t := fun same => outside (by simp [same])
    have notLast : before.getLast? ≠ some b :=
      fun last => outside (by simp [mem_of_getLast? last])
    have notFirst : after.head? ≠ some b := fun first => outside (by simp [mem_of_head? first])
    rw [ahead b other, back b other, if_neg notLast, if_neg notFirst]
    exact ⟨rfl, rfl⟩

theorem unlinkWaiter_channel (w : Waiters m n) (key : Fin m × Side) (t : Fin n) :
    (w.unlinkWaiter key t).channel = update w.channel t none := by
  cases w.prev t <;> rfl

theorem Linked.unlink (linked : Linked w walks q) (member : t ∈ q (.inl key)) :
    Linked (w.unlinkWaiter key t) walks (update q (.inl key) ((q (.inl key)).erase t)) := by
  obtain ⟨before, after, contents⟩ := append_of_mem member
  have nodup := contents ▸ linked.holds.nodup (.inl key)
  have notBefore : t ∉ before := fun there => (nodup_append.mp nodup).2.2 t there t (by simp) rfl
  have erased : (q (.inl key)).erase t = before ++ after := by
    rw [contents, erase_append_right _ notBefore, erase_cons_head]
  obtain ⟨both, head, heads, links⟩ := linked.unlink_list contents
  obtain ⟨forward, back⟩ := linked_iff.mp both
  have elsewhere : ∀ k ≠ .inl key, ∀ b ∈ q k, b ∉ q (.inl key) :=
    fun k other b there here => other (linked.holds.apart k _ b there here)
  refine ⟨?_, ?_, ?_⟩
  · rw [erased]
    apply linked.holds.replace
    · intro b there k here
      refine linked.holds.apart k _ b here ?_
      rw [contents]
      simp only [mem_append, mem_cons] at there ⊢
      tauto
    · exact forward
    · exact (nodup_cons.mp (nodup_middle.mp nodup)).2
    · exact head
    · rintro (k | x) other
      · exact heads k fun same => other (congrArg inl same)
      · rfl
    · exact fun k other b there => (links b (elsewhere k other b there)).1
  · intro k
    by_cases same : k = key
    · rw [same, update_self, erased]
      exact back
    · have other : inl k ≠ (inl key : ListKey m n) := fun is => same (inl.inj is)
      rw [update_of_ne other]
      exact (linked.prev k).congr fun b there =>
        (links b (elsewhere _ other b (mem_reverse.mp there))).2
  · intro b c
    rw [unlinkWaiter_channel]
    simp only [mem_update_inl]
    by_cases own : b = t
    · subst own
      rw [update_self]
      refine ⟨fun is => (nomatch is), ?_⟩
      rintro ⟨side, there⟩
      split at there
      · exact absurd there (linked.holds.nodup _).not_mem_erase
      · rename_i other
        exact absurd (inl.inj (linked.holds.apart _ _ b there member)) other
    · rw [update_of_ne own, linked.channel]
      refine exists_congr fun side => ?_
      split
      · rename_i same
        rw [same, mem_erase_of_ne own]
      · rfl

theorem Linked.removeWaiter (linked : Linked w walks q) (key : Fin m × Side) (t : Fin n) :
    ∃ w', w.pipeRemoveWaiter key t = some w' ∧
      Linked w' walks (update q (.inl key) ((q (.inl key)).erase t)) := by
  have enough : (q (.inl key)).length ≤ n := by simpa using linked.holds.length_le (.inl key)
  have found : Lib.LinkedQueues.firstFrom w.lists.next (· = t) n (w.lists.head key) = _ :=
    linked.holds.firstFrom (· = t) enough
  unfold pipeRemoveWaiter
  rw [found]
  by_cases member : t ∈ q (.inl key)
  · have there : ((q (.inl key)).find? (· = t)).isSome :=
      find?_isSome.mpr ⟨t, member, by simp⟩
    obtain ⟨b, is⟩ := Option.isSome_iff_exists.mp there
    rw [is]
    exact ⟨_, rfl, linked.unlink member⟩
  · have none : (q (.inl key)).find? (· = t) = none := by
      rw [find?_eq_none]
      intro b there
      simpa using ne_of_mem_of_not_mem there member
    rw [none, erase_of_not_mem member, update_eq_self]
    exact ⟨w, rfl, linked⟩

end Waiters

end Mecocoa.Pipe
