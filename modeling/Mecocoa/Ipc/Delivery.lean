import Mecocoa.Ipc.SendQueues

/-! # Delivery

A message whose send returned 0 was copied once, to the thread that it was sent to, or is
kept for it as long as it lives.
-/

namespace Mecocoa.Ipc

open List Comm Nat

open Lib (Run)
open Function (update update_apply update_self update_of_ne forall_update_iff)

def NotCopied (copied : List (Copy n)) (m : Message n) : Prop := ∀ c ∈ copied, c.message ≠ m

/-- The message was copied by one receive of the thread that it was sent to, and by no other,
and that receive copied no other message. -/
def CopiedOnce (copied : List (Copy n)) (m : Message n) : Prop :=
  ∃ before c after, copied = before ++ c :: after ∧ c.message = m ∧ c.taker = m.dst ∧
    ∀ d ∈ before ++ after, d.message ≠ m ∧ (d.taker = c.taker → d.call ≠ c.call)

namespace Mail

/-- What a send reports agrees with what was copied. -/
structure SendOk (copied : List (Copy n)) (nextId : Nat) (call : Call n) (unsolved : Unsolved n) :
    Prop where
  waits : ∀ stage m, call = .send stage m → m.id < nextId ∧ m.isAsync = false ∧
    (unsolved = .message m → NotCopied copied m) ∧ (unsolved = .null → CopiedOnce copied m)
  delivered : ∀ m, call = .sendWake m → m.id < nextId ∧ CopiedOnce copied m

structure Delivery (a : Mail n) : Prop where
  bound : ∀ c ∈ a.copied, c.message.id < a.nextId ∧ c.call ≤ a.recvCalls c.taker
  async : ∀ t, ∀ m ∈ a.async t, m.id < a.nextId ∧ m.dst = t ∧ m.isAsync = true ∧
    NotCopied a.copied m
  nodup : ∀ t, (a.async t).Nodup
  sends : ∀ t, SendOk a.copied a.nextId (a.call t) (a.unsolved t)
  armed : ∀ r, a.recvFrom r ≠ none → ∀ c ∈ a.copied, c.taker = r →
    c.call < a.recvCalls r
  returned : ∀ m ∈ a.returned, m.id < a.nextId ∧
    (CopiedOnce a.copied m ∨ m ∈ a.async m.dst ∨ m.isAsync = true ∧ a.dead m.dst = true)
  mapped : ∀ id t call, a.sendMapped id = true ∧ a.recvMapped t call = true

variable {rules : Rules} {m : Message n} {copied : List (Copy n)} {nextId : Nat}
  {call : Call n} {unsolved : Unsolved n}

/-! ## Copies -/

theorem notCopied_append (not : NotCopied copied m) {c} (other : c.message ≠ m) :
    NotCopied (copied ++ [c]) m := by
  intro d there
  cases mem_append.mp there with
  | inl old => exact not d old
  | inr new => exact mem_singleton.mp new ▸ other

theorem copiedOnce_new (not : NotCopied copied m) {k}
    (unused : ∀ c ∈ copied, c.taker = m.dst → c.call ≠ k) :
    CopiedOnce (copied ++ [⟨m, m.dst, k⟩]) m :=
  ⟨copied, _, [], rfl, rfl, rfl, by simpa using fun d there =>
  ⟨not d there, unused d there⟩⟩

theorem copiedOnce_append (once : CopiedOnce copied m) {c} (other : c.message ≠ m)
    (unused : ∀ d ∈ copied, d.taker = c.taker → d.call ≠ c.call) :
    CopiedOnce (copied ++ [c]) m := by
  obtain ⟨before, d, after, rfl, is, taker, rest⟩ := once
  refine ⟨before, d, after ++ [c], by simp, is, taker, ?_⟩
  intro e there
  rw [← append_assoc] at there
  cases mem_append.mp there with
  | inl old => exact rest e old
  | inr new =>
    cases mem_singleton.mp new
    exact ⟨other, fun same clash => unused d (by simp) same.symm clash.symm⟩

theorem sendOk_idle (other : ¬ call.IsSend) : SendOk copied nextId call unsolved where
  waits := fun _ _ is => absurd (is ▸ trivial) other
  delivered := fun _ is => absurd (is ▸ trivial) other

/-- Another message was copied, and ids were given out. -/
theorem SendOk.append (ok : SendOk copied nextId call unsolved) (more : nextId ≤ nextId')
    (unused : ∀ d ∈ copied, d.taker = c.taker → d.call ≠ c.call)
    (waits : ∀ stage, call ≠ .send stage c.message) (delivered : call ≠ .sendWake c.message) :
    SendOk (copied ++ [c]) nextId' call unsolved where
  waits := by
    intro stage m is
    obtain ⟨id, sync, waiting, taken⟩ := ok.waits stage m is
    have other : c.message ≠ m := fun same => waits stage (same ▸ is)
    exact ⟨id.trans_le more, sync, fun un => notCopied_append (waiting un) other,
      fun un => copiedOnce_append (taken un) other unused⟩
  delivered := by
    intro m is
    obtain ⟨id, once⟩ := ok.delivered m is
    exact ⟨id.trans_le more,
      copiedOnce_append once (fun same => delivered (same ▸ is)) unused⟩

theorem SendOk.more (ok : SendOk copied nextId call unsolved) {nextId'}
    (more : nextId ≤ nextId') :
    SendOk copied nextId' call unsolved where
  waits := fun stage m is => (ok.waits stage m is).imp_left fun id => id.trans_le more
  delivered := fun m is => (ok.delivered m is).imp_left fun id => id.trans_le more

/-! ## Changes of the mail -/

theorem Delivery.more (delivery : Delivery a) : Delivery { a with nextId := a.nextId + 1 } :=
  { bound := fun c there => (delivery.bound c there).imp_left fun id => id.trans (lt_succ_self _)
    async := fun t m there => (delivery.async t m there).imp_left fun id =>
    id.trans (lt_succ_self _)
    nodup := delivery.nodup
    sends := fun t => (delivery.sends t).more (le_succ _)
    armed := delivery.armed
    returned := fun m there => (delivery.returned m there).imp_left fun id =>
    id.trans (lt_succ_self _)
    mapped := delivery.mapped }

/-- Only the send of one thread changed. -/
theorem Delivery.sends_at (delivery : Delivery a) (t : Fin n)
    (ok : SendOk a.copied a.nextId call unsolved) (x : Fin n) :
    SendOk a.copied a.nextId (update a.call t call x) (update a.unsolved t unsolved x) := by
  cases eq_or_ne x t with
  | inl is => simpa [is] using ok
  | inr other => simpa [other] using delivery.sends x

theorem Delivery.sends_call (delivery : Delivery a) (t : Fin n)
    (ok : SendOk a.copied a.nextId call (a.unsolved t)) (x : Fin n) :
    SendOk a.copied a.nextId (update a.call t call x) (a.unsolved x) := by
  simpa using delivery.sends_at t ok x

/-- A sender that is told that its receiver is dead. -/
theorem SendOk.dead (ok : SendOk copied nextId call unsolved) :
    SendOk copied nextId call .dead where
  waits := by
    intro stage m is
    obtain ⟨id, sync, _⟩ := ok.waits stage m is
    exact ⟨id, sync, nofun, nofun⟩
  delivered := ok.delivered

theorem Delivery.disarmed (delivery : Delivery a) (t x : Fin n)
    (armed : update a.recvFrom t none x ≠ none) :
    ∀ c ∈ a.copied, c.taker = x → c.call < a.recvCalls x := by
  rw [update_apply] at armed
  split at armed
  · exact absurd rfl armed
  · exact delivery.armed x armed

theorem Delivery.begun (delivery : Delivery a) (r : Fin n) (there : c ∈ a.copied) :
    c.message.id < a.nextId ∧ c.call ≤ update a.recvCalls r (a.recvCalls r + 1) c.taker := by
  obtain ⟨id, call⟩ := delivery.bound c there
  rw [update_apply]
  split
  · rename_i same
    exact ⟨id, same ▸ call.trans (le_succ _)⟩
  · exact ⟨id, call⟩

/-- The receive that a message is for has not copied another one. -/
theorem Delivery.place (delivery : Delivery a) (careful : rules.careful) {fresh}
    (may : MayTake rules a fresh r) :
    ∀ c ∈ a.copied, c.taker = r → c.call < a.place fresh r := by
  intro c there taker
  cases fresh with
  | true =>
    have := (delivery.bound c there).2
    rw [taker] at this
    exact lt_succ_of_le this
  | false => exact delivery.armed r (may.2 careful) c there taker

/-- A message that was not copied yet goes to its receiver. -/
theorem Delivery.copy (delivery : Delivery a) {k} (not : NotCopied a.copied m)
    (id : m.id < b.nextId) (more : a.nextId ≤ b.nextId)
    (copied : b.copied = a.copied ++ [⟨m, m.dst, k⟩])
    (unused : ∀ c ∈ a.copied, c.taker = m.dst → c.call < k)
    (calls : b.recvCalls = update a.recvCalls m.dst k)
    (armed : ∀ x, b.recvFrom x ≠ none → x ≠ m.dst ∧ b.recvFrom x = a.recvFrom x)
    (fewer : ∀ t, ∀ m' ∈ b.async t, m' ∈ a.async t ∧ m' ≠ m)
    (nodup : ∀ t, (b.async t).Nodup)
    (kept : ∀ t, ∀ m' ∈ a.async t, m' ≠ m → m' ∈ b.async t)
    (sends : ∀ t, SendOk (a.copied ++ [⟨m, m.dst, k⟩]) b.nextId (b.call t) (b.unsolved t))
    (dead : b.dead = a.dead) (returned : b.returned = a.returned)
    (mapped : b.sendMapped = a.sendMapped ∧ b.recvMapped = a.recvMapped) : Delivery b where
  bound := by
    intro c there
    rw [copied] at there
    rw [calls]
    cases mem_append.mp there with
    | inl old =>
      obtain ⟨id', call⟩ := delivery.bound c old
      refine ⟨id'.trans_le more, ?_⟩
      cases eq_or_ne c.taker m.dst with
      | inl same =>
        rw [same, update_self]
        exact (unused c old same).le
      | inr other => rwa [update_of_ne other]
    | inr new =>
      cases mem_singleton.mp new
      exact ⟨id, by rw [update_self]⟩
  async := by
    intro t m' there
    obtain ⟨before, other⟩ := fewer t m' there
    obtain ⟨id', dst, isAsync, not'⟩ := delivery.async t m' before
    rw [copied]
    exact ⟨id'.trans_le more, dst, isAsync, notCopied_append not' other.symm⟩
  nodup := nodup
  sends := copied ▸ sends
  armed := by
    intro x waits c there taker
    obtain ⟨other, same⟩ := armed x waits
    rw [copied] at there
    rw [calls, update_of_ne other]
    cases mem_append.mp there with
    | inl old => exact delivery.armed x (same ▸ waits) c old taker
    | inr new =>
      cases mem_singleton.mp new
      exact absurd taker.symm other
  returned := by
    intro m' there
    rw [returned] at there
    rw [copied, dead]
    obtain ⟨id', place⟩ := delivery.returned m' there
    refine ⟨id'.trans_le more, ?_⟩
    have unused' : ∀ c ∈ a.copied, c.taker = m.dst → c.call ≠ k := fun c there taker =>
      (unused c there taker).ne
    cases eq_or_ne m' m with
    | inl same => exact .inl (same ▸ copiedOnce_new not unused')
    | inr other =>
      rcases place with once | held | gone
      · exact .inl (copiedOnce_append once other.symm unused')
      · exact .inr (.inl (kept _ m' held other))
      · exact .inr (.inr gone)
  mapped := by
    rw [mapped.1, mapped.2]
    exact delivery.mapped

theorem Delivery.notCopied_new (delivery : Delivery a) (new : m.id = a.nextId) :
    NotCopied a.copied m := by
  intro c there same
  have := (delivery.bound c there).1
  rw [same, new] at this
  exact lt_irrefl _ this

/-- A send in progress has an earlier message. -/
theorem Delivery.call_ne (delivery : Delivery a) (new : m.id = a.nextId) (t : Fin n) :
    (∀ stage, a.call t ≠ .send stage m) ∧ a.call t ≠ .sendWake m := by
  constructor
  · intro stage is
    have := ((delivery.sends t).waits stage m is).1
    rw [new] at this
    exact lt_irrefl _ this
  · intro is
    have := ((delivery.sends t).delivered m is).1
    rw [new] at this
    exact lt_irrefl _ this

theorem Delivery.deliver (delivery : Delivery a) (ok : Ok a) (careful : rules.careful)
    (new : m.id = a.nextId) (idle : a.call m.src = .none)
    (armed : a.recvFrom m.dst = some (.thread m.src) ∨ a.recvFrom m.dst = some .any) :
    Delivery { a.into false m.dst m with
      call := update a.call m.src (.sendWake m)
      sent := if m.isAsync then a.sent ++ [m] else a.sent
      nextId := a.nextId + 1 } := by
  have waits : ∃ foo, (a.call m.dst).Waits foo ∧ a.recvFrom m.dst ≠ none := by
    rcases armed with is | is
    · exact ⟨_, ((ok m.dst).armed _ is).2, by simp [is]⟩
    · exact ⟨_, ((ok m.dst).armed _ is).2, by simp [is]⟩
  obtain ⟨foo, waits, some⟩ := waits
  have may : MayTake rules a false m.dst := ⟨waits_not_send waits, fun _ => some⟩
  have unused := delivery.place careful may
  have not := delivery.notCopied_new new
  refine delivery.copy not (by simp [new]) (le_succ _) (into_copied ..) unused (into_recvCalls ..)
    ?_ ?_ delivery.nodup (fun _ _ there _ => there) ?_ rfl rfl ⟨rfl, rfl⟩
  · intro x armed
    exact into_recvFrom (m := m) may armed
  · intro t m' there
    refine ⟨there, ?_⟩
    rintro rfl
    have := (delivery.async t m' there).1
    rw [new] at this
    exact lt_irrefl _ this
  · intro x
    have unused' : ∀ c ∈ a.copied, c.taker = m.dst → c.call ≠ a.place false m.dst :=
      fun c there taker => (unused c there taker).ne
    dsimp only
    rw [update_apply]
    split
    · refine ⟨nofun, ?_⟩
      intro m' is
      cases is
      exact ⟨by simp [new], copiedOnce_new not unused'⟩
    · cases eq_or_ne x m.dst with
      | inl same =>
        rw [same]
        exact sendOk_idle (waits_not_send waits)
      | inr apart =>
        rw [into_unsolved apart]
        exact (delivery.sends x).append (le_succ _) unused' (delivery.call_ne new x).1
          (delivery.call_ne new x).2

theorem Delivery.post (delivery : Delivery a) (new : m.id = a.nextId) (isAsync : m.isAsync = true) :
    Delivery { a with
      async := update a.async m.dst (a.async m.dst ++ [m])
      sent := a.sent ++ [m]
      returned := a.returned ++ [m]
      nextId := a.nextId + 1 } := by
  have more := delivery.more
  refine { more with async := ?_, nodup := ?_, returned := ?_ }
  · intro t m' there
    dsimp only at there ⊢
    rw [update_apply] at there
    split at there
    · rename_i same
      cases mem_append.mp there with
      | inl before => exact more.async t m' (same ▸ before)
      | inr last =>
        cases mem_singleton.mp last
        exact ⟨by simp [new], same.symm, isAsync, delivery.notCopied_new new⟩
    · exact more.async t m' there
  · refine (forall_update_iff a.async fun _ l => l.Nodup).mpr ⟨?_, fun t _ => delivery.nodup t⟩
    rw [← concat_eq_append]
    refine Nodup.concat (fun there => ?_) (delivery.nodup m.dst)
    have := (delivery.async m.dst m there).1
    rw [new] at this
    exact lt_irrefl _ this
  · intro m' there
    dsimp only at there ⊢
    cases mem_append.mp there with
    | inl before =>
      obtain ⟨id, place⟩ := more.returned m' before
      refine ⟨id, place.imp_right (.imp_left fun held => ?_)⟩
      rw [update_apply]
      split
      · rename_i same
        exact mem_append_left _ (same ▸ held)
      · exact held
    | inr last =>
      cases mem_singleton.mp last
      exact ⟨by simp [new], .inr (.inl (by simp))⟩

theorem Delivery.take (delivery : Delivery a) (ok : Ok a) (careful : rules.careful)
    (queued : a.sendTo fo = some r) (is : a.unsolved fo = .message m)
    (may : MayTake rules a fresh r) :
    Delivery ({ a with
      unsolved := update a.unsolved fo .null
      sendTo := update a.sendTo fo none }.into fresh r m) := by
  have dst : m.dst = r := Option.some.inj (((ok fo).message m is).symm.trans queued)
  obtain ⟨stage, m', call, _, un⟩ := (ok fo).sending r queued
  cases is.symm.trans un
  obtain ⟨id, sync, not, _⟩ := (delivery.sends fo).waits stage m call
  have not := not is
  have own : m.src = fo := (ok fo).own m (.inl ⟨stage, call⟩)
  subst dst
  have unused := delivery.place careful may
  refine delivery.copy not (by simpa using id) (by simp) (into_copied ..) unused (into_recvCalls ..)
    (fun _ => into_recvFrom may) ?_ (by simpa using delivery.nodup)
    (by simpa using fun _ _ there _ => there) ?_
    (into_dead ..) (into_returned ..) (into_mapped ..)
  · intro t m' there
    rw [into_async] at there
    refine ⟨there, ?_⟩
    rintro rfl
    have := (delivery.async t m' there).2.2.1
    rw [sync] at this
    cases this
  · intro x
    have unused' : ∀ c ∈ a.copied, c.taker = m.dst → c.call ≠ a.place fresh m.dst :=
      fun c there taker => (unused c there taker).ne
    rw [into_nextId, into_call]
    cases eq_or_ne x m.dst with
    | inl same =>
      rw [same]
      exact sendOk_idle may.1
    | inr apart =>
      rw [into_unsolved apart]
      dsimp only
      cases eq_or_ne x fo with
      | inl same =>
        rw [same, update_self, call]
        refine ⟨?_, nofun⟩
        intro stage' m' is'
        cases is'
        exact ⟨id, sync, nofun, fun _ => copiedOnce_new not unused'⟩
      | inr other =>
        rw [update_of_ne other]
        refine (delivery.sends x).append le_rfl unused' ?_ ?_
        · intro stage' is'
          exact other (((ok x).own m (.inl ⟨stage', is'⟩)).symm.trans own)
        · intro is'
          exact other (((ok x).own m (.inr is')).symm.trans own)

theorem Delivery.takeAsync (delivery : Delivery a) (careful : rules.careful) {foo : Source n}
    (found : (a.async r).find? foo.picks = some m) (may : MayTake rules a fresh r) :
    Delivery
      ({ a with async := update a.async r ((a.async r).eraseP foo.picks) }.into fresh r m) := by
  have member := mem_of_find?_eq_some found
  obtain ⟨id, dst, isAsync, not⟩ := delivery.async r m member
  subst dst
  have unused := delivery.place careful may
  have erased : (a.async m.dst).eraseP foo.picks = (a.async m.dst).erase m := by
    obtain ⟨picked, before, after, is, first⟩ := find?_eq_some_iff_append.mp found
    have absent : m ∉ before := fun there => by
      have := first m there
      simp [picked] at this
    rw [is, erase_append_right _ absent, erase_cons_head, eraseP_append_right,
      eraseP_cons_of_pos picked]
    intro m' there
    simpa using first m' there
  rw [erased]
  refine delivery.copy not (by simpa using id) (by simp) (into_copied ..) unused (into_recvCalls ..)
    (fun _ => into_recvFrom may) ?_ ?_ ?_ ?_ (into_dead ..) (into_returned ..) (into_mapped ..)
  · intro t m' there
    rw [into_async] at there
    dsimp only at there
    rw [update_apply] at there
    split at there
    · rename_i same
      rw [(delivery.nodup m.dst).mem_erase_iff] at there
      exact ⟨same ▸ there.2, there.1⟩
    · rename_i other
      refine ⟨there, ?_⟩
      rintro rfl
      exact other (delivery.async t m' there).2.1.symm
  · rw [into_async]
    exact (forall_update_iff a.async fun _ l => l.Nodup).mpr
      ⟨(delivery.nodup m.dst).erase m, fun t _ => delivery.nodup t⟩
  · intro t m' there other
    rw [into_async]
    dsimp only
    rw [update_apply]
    split
    · rename_i same
      rw [(delivery.nodup m.dst).mem_erase_iff]
      exact ⟨other, same ▸ there⟩
    · exact there
  · intro x
    rw [into_nextId, into_call]
    cases eq_or_ne x m.dst with
    | inl same =>
      rw [same]
      exact sendOk_idle may.1
    | inr apart =>
      rw [into_unsolved apart]
      refine (delivery.sends x).append le_rfl (fun c there taker => (unused c there taker).ne) ?_ ?_
      · intro stage is
        have := ((delivery.sends x).waits stage m is).2.1
        rw [isAsync] at this
        cases this
      · intro is
        obtain ⟨before, c, after, copies, same, _⟩ := ((delivery.sends x).delivered m is).2
        exact not c (by simp [copies]) same

theorem Edit.delivery (careful : rules.careful)
    (delivery : Delivery a) (ok : Ok a) (edit : Edit rules a b) :
    Delivery b := by
  cases edit with
  | @stage t stage m stage' is =>
    refine { delivery with sends := delivery.sends_call t ⟨?_, nofun⟩ }
    intro stage'' m' is'
    cases is'
    exact (delivery.sends t).waits stage m is
  | @finish t m done =>
    have place : m.id < a.nextId ∧ CopiedOnce a.copied m := by
      rcases done with ⟨is, null⟩ | is
      · obtain ⟨id, _, _, taken⟩ := (delivery.sends t).waits _ m is
        exact ⟨id, taken null⟩
      · exact (delivery.sends t).delivered m is
    refine { delivery with sends := delivery.sends_call t (sendOk_idle id), returned := ?_ }
    intro m' there
    cases mem_append.mp there with
    | inl before => exact delivery.returned m' before
    | inr last =>
      cases mem_singleton.mp last
      exact ⟨place.1, .inl place.2⟩
  | @giveUp t stage m is => exact { delivery with sends := delivery.sends_at t (sendOk_idle id) }
  | @move t call before after waits =>
    exact { delivery with sends := delivery.sends_call t (sendOk_idle after) }
  | @disarm t mark free marked =>
    have ok : SendOk a.copied a.nextId (a.call t) mark := by
      rcases marked with rfl | ⟨rfl, other⟩
      · exact (delivery.sends t).dead
      · exact sendOk_idle other
    exact { delivery with
      sends := fun x => by simpa using delivery.sends_at t ok x, armed := delivery.disarmed t }
  | deliver new idle armed => exact delivery.deliver ok careful new idle armed
  | post new idle isAsync notArmed => exact delivery.post new isAsync
  | @queue m new idle sync takes checked =>
    refine { delivery.more with sends := delivery.more.sends_at m.src ⟨?_, nofun⟩ }
    intro stage m' is
    cases is
    exact ⟨by simp [new], sync, fun _ => delivery.notCopied_new new, nofun⟩
  | take fresh queued is may => exact delivery.take ok careful queued is may
  | takeAsync fresh found may => exact delivery.takeAsync careful found may
  | beginRecv r idle =>
    refine { delivery with bound := fun c there => delivery.begun r there, armed := ?_ }
    intro x armed
    have other : x ≠ r := fun same => armed (same ▸ idle)
    dsimp only
    rw [update_of_ne other]
    exact delivery.armed x armed
  | @arm r foo dropped idle notArmed nothing noRupt =>
    refine { delivery with
      bound := fun c there => delivery.begun r there, armed := ?_, sends :=
      delivery.sends_at r (sendOk_idle id) }
    intro x armed c there taker
    dsimp only at armed ⊢
    cases eq_or_ne x r with
    | inl same =>
      rw [same, update_self]
      have := (delivery.bound c there).2
      rw [taker, same] at this
      exact lt_succ_of_le this
    | inr other =>
      rw [update_of_ne other] at armed ⊢
      exact delivery.armed x armed c there taker
  | @fail t queued =>
    exact { delivery with
      sends := fun x => by simpa using delivery.sends_at t (delivery.sends t).dead x }
  | release queued lossy => exact absurd careful lossy
  | clearAsync t lossy wild =>
    refine { delivery with async := ?_, nodup := ?_, returned := ?_ }
    · intro x m there
      dsimp only at there
      rw [update_apply] at there
      split at there
      · cases there
      · exact delivery.async x m there
    · exact (forall_update_iff a.async fun _ l => l.Nodup).mpr
        ⟨nodup_nil, fun x _ => delivery.nodup x⟩
    · intro m there
      obtain ⟨id, place⟩ := delivery.returned m there
      refine ⟨id, ?_⟩
      rcases place with once | held | gone
      · exact .inl once
      · dsimp only
        cases eq_or_ne m.dst t with
        | inl same =>
          exact .inr (.inr ⟨(delivery.async _ m held).2.2.1, same ▸ lossy careful⟩)
        | inr other => exact .inr (.inl (by rwa [update_of_ne other]))
      · exact .inr (.inr gone)
  | recordRupt => exact { delivery with }
  | takeRupt => exact { delivery with }
  | buffers sendMapped recvMapped mapped =>
    obtain ⟨sends, recvs⟩ := mapped careful
    refine { delivery with mapped := fun id t call => ?_ }
    obtain ⟨send, recv⟩ := delivery.mapped id t call
    exact ⟨sends id send, recvs t call recv⟩
  | @reset t free =>
    exact { delivery with
      sends := delivery.sends_at t (sendOk_idle id), armed := delivery.disarmed t }
  | status dead takes more lasting =>
    refine { delivery with returned := ?_ }
    intro m there
    obtain ⟨id, place⟩ := delivery.returned m there
    exact ⟨id, place.imp_right (.imp_right fun gone => ⟨gone.1, more _ gone.2⟩)⟩

end Mail

/-! ## Runs -/

/-- The data of the message came into the buffer of one receive of the thread that it was sent to,
which took no other message, and no other receive took this one. -/
def Comm.ArrivedOnce (s : Comm n p) (m : Message n) : Prop :=
  CopiedOnce s.copied m ∧ ∀ c ∈ s.copied, c.message = m → s.arrived c = true

/-- Steps that lose neither a sender nor a message. -/
def CarefulStep : Comm n p → Event n p → Comm n p → Prop :=
  StepWhen fun s e => Orderly s e ∧ Careful s e

end Mecocoa.Ipc
