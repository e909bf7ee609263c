import LiteFan.Mirror

/-!
# Two runs side by side

Two stores run in parallel look alike to every consumer but those set apart.
The same call made on both keeps them so, with the identifiers of a redrive
renumbered, and so does a call through a handle set apart made on one of them.
-/

namespace LiteFan.Alike

open LiteFan.Api LiteFan.Time LiteFan.Schema LiteFan.Storage LiteFan.Store LiteFan.Consumer
open LiteFan.System LiteFan.Invariant LiteFan.Effect LiteFan.Step LiteFan.Preservation LiteFan.Calls
open LiteFan.Inbox Relational

section Confinement

variable {fan : Inner} {db db' : Db} {c : ℤ} {op : Op} {reply : Except Error Reply}
  {self : Consumer}

/-- What an open looks at in a row. -/
def identity (row : ConsumerRow) : String × Option String := (row.name, row.topicFilter)

/-- A call through a consumer's handle left everything else as it was. -/
structure Confined (c : ℤ) (db db' : Db) : Prop where
  inv : Inv db'
  messages : db'.messages = db.messages
  ledger : db'.idempotency = db.idempotency
  seq : db'.consumers.seq = db.consumers.seq
  identities : ∀ k, (db'.consumers.lookup k).map identity = (db.consumers.lookup k).map identity
  others : ∀ k, k ≠ c → Untouched k db db'

theorem Confined.refl (hinv : Inv db) (c : ℤ) : Confined c db db :=
  ⟨hinv, rfl, rfl, rfl, fun _ => rfl, fun k _ => Untouched.refl k db⟩

/-- Another inbox is as before. -/
theorem Confined.kept (h : Confined c db db') {k : ℤ} (hk : k ≠ c) : Kept k db db' :=
  ⟨h.others k hk, waiting_congr (h.others k hk).row h.messages,
    ⟨by rw [h.messages], h.ledger, fun _ hmem => h.messages ▸ hmem⟩⟩

/-- No row changes its name or its filter through a handle. -/
theorem identities_effect (heffect : Effect fan db op db' reply)
    (hthrough : System.through op = some self) :
    db'.consumers.seq = db.consumers.seq ∧
      ∀ k, (db'.consumers.lookup k).map identity = (db.consumers.lookup k).map identity := by
  cases heffect with
  | @granted other poll now leaseMs deadline row hlease hid hrow hdeadline =>
    refine ⟨rfl, fun k => ?_⟩
    by_cases hk : k = row.id
    · subst hk
      rw [lookup_claimedDb_self hrow, hrow]
      rfl
    · rw [lookup_claimedDb_other hk]
  | @drained other now =>
    refine ⟨rfl, fun k => ?_⟩
    rw [lookup_drainedDb, Option.map_map]
    refine congrArg (fun f => Option.map f _) (funext fun row => ?_)
    rw [Function.comp_apply, Table.rowUpdate]
    split <;> rfl
  | created | reopened | published | deleted | pruned => cases hthrough
  | rejected | idle | acked | nacked | extended | archived | redriven | purged =>
    exact ⟨rfl, fun _ => rfl⟩

/-- A transaction through a handle is confined to its consumer. -/
theorem confined_exec (e : Engine) (fan : Inner) (hinv : Inv db)
    (hthrough : System.through op = some self) : Confined self.id db (exec e fan op db).1 := by
  have heffect := exec_effect e fan op hinv
  obtain ⟨hmessages, hledger, hothers⟩ := untouched_effect heffect hinv hthrough
  obtain ⟨hseq, hidentities⟩ := identities_effect heffect hthrough
  exact ⟨inv_effect heffect hinv, hmessages, hledger, hseq, hidentities, hothers⟩

/-- So is every call through a handle. -/
theorem confined_call (e : Engine) (fan : Inner) {call : Call} (hinv : Inv db)
    (hthrough : call.through = some self) : Confined self.id db (call.run e fan db).1 := by
  rcases call_after e fan call db with hsame | ⟨op, hop, hexec⟩
  · rw [hsame]
    exact .refl hinv self.id
  · rw [hexec]
    exact confined_exec e fan hinv (hop.trans hthrough)

end Confinement

section Calls

variable {a b : Db} {self : Consumer}

/-- The call with other archive identifiers to redrive. -/
def Call.renumber (f : List ℤ → List ℤ) : Call → Call
  | .commit op => .commit (Alike.renumber f op)
  | call => call

/-- The archive identifiers a call redrives. -/
def Call.redriveIds : Call → Option (List ℤ)
  | .commit op => Alike.redriveIds op
  | _ => none

theorem through_renumber (f : List ℤ → List ℤ) (op : Op) :
    System.through (renumber f op) = System.through op := by
  cases op <;> rfl

theorem Call.through_renumber (f : List ℤ → List ℤ) (call : Call) :
    (Call.renumber f call).through = call.through := by
  cases call with
  | commit op => exact Alike.through_renumber f op
  | poll | archives | beginDraining | consumerSnapshot | snapshot => rfl

/-- A call through the consumer's handle leaves its inboxes the same. -/
theorem SameInbox.call (h : SameInbox self.id a b) (hlog : SameLog a b) (ha : Inv a) (hb : Inv b)
    (e : Engine) (fan : Inner) {call : Call} (hthrough : call.through = some self)
    {f : List ℤ → List ℤ}
    (hf : ∀ ids, Call.redriveIds call = some ids → Corresponds self.id a b ids (f ids)) :
    SameInbox self.id (call.run e fan a).1 ((Call.renumber f call).run e fan b).1 := by
  cases call with
  | commit op => exact (h.exec hlog ha hb e fan hthrough hf).inbox
  | poll other options start now =>
    obtain rfl := Option.some.inj hthrough
    exact (h.pollRound hlog ha hb e fan options start now).1
  | beginDraining other now =>
    obtain rfl := Option.some.inj hthrough
    have hdrained : Matched other.id (System.exec e fan (.beginDraining other now) a)
        (System.exec e fan (.beginDraining other now) b) :=
      @SameInbox.exec _ _ _ h hlog ha hb e fan _ rfl id fun _ hnone => by cases hnone
    have hafter : ∀ db, (Consumer.beginDraining other now db).1 =
        (System.exec e fan (.beginDraining other now) db).1 := fun db => beginDraining_after
    change SameInbox other.id (Consumer.beginDraining other now a).1
      (Consumer.beginDraining other now b).1
    rw [hafter, hafter]
    exact hdrained.inbox
  | archives | consumerSnapshot => exact h
  | snapshot => cases hthrough

end Calls

section Parallel

variable {apart : ℤ → Prop} {a a' b b' : Db} {c : ℤ}

/-- Two stores that look alike to every consumer but those set apart, and hand
out the same identifiers and names. -/
structure AlikeBut (apart : ℤ → Prop) (a b : Db) : Prop where
  inv : Inv a
  inv' : Inv b
  log : SameLog a b
  seq : a.consumers.seq = b.consumers.seq
  identities : ∀ c, (a.consumers.lookup c).map identity = (b.consumers.lookup c).map identity
  inbox : ∀ c, ¬apart c → SameInbox c a b

/-- A reachable store looks to everybody like itself. -/
theorem AlikeBut.refl {db : Db} (hinv : Inv db) : AlikeBut apart db db :=
  ⟨hinv, hinv, .refl db, rfl, fun _ => rfl, fun c _ => .refl c db⟩

/-- Calls confined to consumers leave logs that agree in agreement. -/
theorem SameLog.confined (h : SameLog a b) {c' : ℤ} (ha : Confined c a a') (hb : Confined c' b b') :
    SameLog a' b' := by
  refine ⟨?_, ?_, ?_⟩
  · rw [ha.messages, hb.messages, h.seq]
  · rw [ha.ledger, hb.ledger, h.ledger]
  · rw [ha.messages, hb.messages]
    exact h.agree

/-- Calls confined to one consumer keep the stores alike when they keep its own inbox so. -/
theorem AlikeBut.confined (h : AlikeBut apart a b) (ha : Confined c a a') (hb : Confined c b b')
    (hinbox : ¬apart c → SameInbox c a' b') : AlikeBut apart a' b' where
  inv := ha.inv
  inv' := hb.inv
  log := h.log.confined ha hb
  seq := by rw [ha.seq, hb.seq, h.seq]
  identities k := by rw [ha.identities, hb.identities, h.identities]
  inbox k hk := by
    by_cases hown : k = c
    · subst hown
      exact hinbox hk
    · exact (((h.inbox k hk).kept (hb.kept hown)).symm.kept (ha.kept hown)).symm

/-- A consumer beyond the identifiers handed out has nothing stored. -/
theorem unused_inbox {db : Db} (hinv : Inv db) (hc : db.consumers.lookup c = none) :
    deliveriesOf db c = [] ∧ archivesOf db c = [] := by
  constructor
  · refine List.eq_nil_iff_forall_not_mem.mpr fun d hd => ?_
    obtain ⟨hmem, rfl⟩ := mem_deliveriesOf.mp hd
    have hlive := (hinv.delivery_refers d hmem).consumer
    rw [hc] at hlive
    cases hlive
  · refine List.eq_nil_iff_forall_not_mem.mpr fun r hr => ?_
    obtain ⟨hmem, rfl⟩ := mem_archivesOf.mp hr
    have hlive := (hinv.archive_refers r hmem).consumer
    rw [hc] at hlive
    cases hlive

/-- No key beyond the counter is stored. -/
theorem lookup_beyond {db : Db} (hc : db.consumers.seq < c) : db.consumers.lookup c = none := by
  refine AutoTable.lookup_eq_none.mpr fun row hrow hid => ?_
  have hle := db.consumers.key_le row hrow
  omega

/-- A name is free in both stores or names the same identity in both. -/
theorem AlikeBut.named (h : AlikeBut apart a b) (name : String) :
    (consumerNamed a name = none ∧ consumerNamed b name = none) ∨
      ∃ row row', consumerNamed a name = some row ∧ consumerNamed b name = some row' ∧
        row.id = row'.id ∧ row.topicFilter = row'.topicFilter := by
  have hcopy : ∀ {a b : Db} {row : ConsumerRow}, Inv b →
      (∀ c, (a.consumers.lookup c).map identity = (b.consumers.lookup c).map identity) →
      consumerNamed a name = some row → ∃ row', consumerNamed b name = some row' ∧
        row.id = row'.id ∧ row.topicFilter = row'.topicFilter := by
    intro a b row hinv hidentities hrow
    obtain ⟨hmem, hname⟩ := consumerNamed_some hrow
    have hfound := hidentities row.id
    rw [AutoTable.lookup_key hmem, Option.map_some, eq_comm] at hfound
    obtain ⟨row', hrow', hsame⟩ := Option.map_eq_some_iff.mp hfound
    obtain ⟨hmem', hid⟩ := AutoTable.lookup_eq_some.mp hrow'
    obtain ⟨hname', hfilter⟩ := Prod.mk.inj hsame
    refine ⟨row', ?_, hid.symm, hfilter.symm⟩
    rw [← hname, ← hname']
    exact consumerNamed_of_mem hinv hmem'
  cases hleft : consumerNamed a name with
  | some row =>
    obtain ⟨row', hright, hid, hfilter⟩ := hcopy h.inv' h.identities hleft
    exact .inr ⟨row, row', rfl, hright, hid, hfilter⟩
  | none =>
    cases hright : consumerNamed b name with
    | none => exact .inl ⟨rfl, rfl⟩
    | some row' =>
      obtain ⟨row, hrow, -⟩ := hcopy h.inv (fun c => (h.identities c).symm) hright
      rw [hleft] at hrow
      cases hrow

/-- The stores are alike again when the consumers known before and the ones opened since
find the same inboxes. -/
theorem AlikeBut.assemble (h : AlikeBut apart a b) (ha : Inv a') (hb : Inv b')
    (hlog : SameLog a' b') (hseq : a'.consumers.seq = b'.consumers.seq)
    (hidentities : ∀ c, (a'.consumers.lookup c).map identity = (b'.consumers.lookup c).map identity)
    (hknown : ∀ c, c ≤ a.consumers.seq → c ≤ b.consumers.seq → ¬apart c → SameInbox c a' b')
    (hnew : ∀ c, a.consumers.seq < c → c ≤ a'.consumers.seq → ¬apart c → SameInbox c a' b') :
    AlikeBut apart a' b' := by
  refine ⟨ha, hb, hlog, hseq, hidentities, fun c hc => ?_⟩
  by_cases hle : c ≤ a.consumers.seq
  · exact hknown c hle (h.seq ▸ hle) hc
  · by_cases hopened : c ≤ a'.consumers.seq
    · exact hnew c (not_le.mp hle) hopened hc
    · have hgone : a'.consumers.lookup c = none := lookup_beyond (not_le.mp hopened)
      have hgone' : b'.consumers.lookup c = none := lookup_beyond (hseq ▸ not_le.mp hopened)
      obtain ⟨hdeliveries, harchives⟩ := unused_inbox ha hgone
      obtain ⟨hdeliveries', harchives'⟩ := unused_inbox hb hgone'
      exact .empty hgone hgone' hdeliveries hdeliveries' harchives harchives'

/-- A consumer that was just created awaits nothing. -/
theorem waiting_opened (db : Db) (name : String) (filter : Filter) (now : ℤ) :
    waiting (openedDb db name filter now) (db.consumers.seq + 1) = [] := by
  have hrow : (openedDb db name filter now).consumers.lookup (db.consumers.seq + 1) =
      some (activeRow name filter now (highWater db) (db.consumers.seq + 1)) := by
    rw [lookup_openedDb, if_pos rfl]
  rw [waiting_row hrow, unseen_eq]
  refine List.eq_nil_iff_forall_not_mem.mpr fun message hmem => ?_
  obtain ⟨hstored, hawaits⟩ := AutoTable.mem_select.mp hmem
  have hle : message.id ≤ highWater db := le_highWater hstored
  rw [awaits, Bool.and_assoc, Bool.and_eq_true, decide_eq_true_iff] at hawaits
  exact absurd hawaits.1 (not_lt.mpr hle)

/-- Two stores stay alike when a consumer is created in both. -/
theorem SameInbox.opened (h : AlikeBut apart a b) (name : String) (filter : Filter) (now : ℤ) :
    SameInbox (a.consumers.seq + 1) (openedDb a name filter now) (openedDb b name filter now) := by
  have hgone : a.consumers.lookup (a.consumers.seq + 1) = none := lookup_beyond (by omega)
  have hgone' : b.consumers.lookup (a.consumers.seq + 1) = none :=
    lookup_beyond (by rw [h.seq]; omega)
  obtain ⟨hdeliveries, harchives⟩ := unused_inbox h.inv hgone
  obtain ⟨hdeliveries', harchives'⟩ := unused_inbox h.inv' hgone'
  refine ⟨?_, ?_, hdeliveries.trans hdeliveries'.symm, ?_⟩
  · rw [lookup_openedDb, lookup_openedDb, if_pos rfl, if_pos (by rw [h.seq])]
    rfl
  · rw [waiting_opened, h.seq, waiting_opened]
  · change List.Forall₂ Twins (archivesOf a _) (archivesOf b _)
    rw [harchives, harchives']
    exact .nil

/-- An open of the store. -/
theorem AlikeBut.opened (h : AlikeBut apart a b) (e : Engine) (fan : Inner) (name : String)
    (filter : Filter) (now : ℤ) :
    AlikeBut apart (exec e fan (.openConsumer name filter now) a).1
        (exec e fan (.openConsumer name filter now) b).1 ∧
      (exec e fan (.openConsumer name filter now) a).2 =
        (exec e fan (.openConsumer name filter now) b).2 := by
  have hlog := h.log.exec h.inv h.inv' e fan (.openConsumer name filter now)
    (.openConsumer name filter now) fun _ _ => Iff.rfl
  have hinv := inv_effect (exec_effect e fan (.openConsumer name filter now) h.inv) h.inv
  have hinv' := inv_effect (exec_effect e fan (.openConsumer name filter now) h.inv') h.inv'
  have hknown : ∀ c, c ≤ a.consumers.seq → c ≤ b.consumers.seq → ¬apart c →
      SameInbox c (exec e fan (.openConsumer name filter now) a).1
        (exec e fan (.openConsumer name filter now) b).1 := fun c hle hle' hc =>
    (h.inbox c hc).store h.log h.inv h.inv' e fan rfl hle hle'
  by_cases hname : name = ""
  · have hfail : ∀ db, exec e fan (.openConsumer name filter now) db =
        (db, .error .emptyConsumerName) := fun db =>
      replying_error (openConsumer_empty hname)
    rw [hfail, hfail]
    exact ⟨h, rfl⟩
  · rcases h.named name with ⟨hleft, hright⟩ | ⟨row, row', hleft, hright, hid, hfilter⟩
    · have hexec : exec e fan (.openConsumer name filter now) a =
          (openedDb a name filter now, .ok (.opened ⟨nextConsumer a, name, filter⟩)) :=
        replying_ok (openConsumer_new hname hleft)
      have hexec' : exec e fan (.openConsumer name filter now) b =
          (openedDb b name filter now, .ok (.opened ⟨nextConsumer b, name, filter⟩)) :=
        replying_ok (openConsumer_new hname hright)
      rw [hexec, hexec'] at hlog hknown ⊢
      rw [hexec] at hinv
      rw [hexec'] at hinv'
      have hseq : a.consumers.seq + 1 = b.consumers.seq + 1 := by rw [h.seq]
      refine ⟨h.assemble hinv hinv' hlog hseq (fun c => ?_) hknown fun c hlt hle _ => ?_, ?_⟩
      · rw [lookup_openedDb, lookup_openedDb, h.seq]
        split_ifs
        · rfl
        · exact h.identities c
      · have hle : c ≤ a.consumers.seq + 1 := hle
        obtain rfl : c = a.consumers.seq + 1 := by omega
        exact .opened h name filter now
      · rw [nextConsumer, nextConsumer, h.seq]
    · have htaken : openConsumer name filter now a = _ := openConsumer_taken hname hleft
      have htaken' : openConsumer name filter now b = _ := openConsumer_taken hname hright
      rw [← hfilter, ← hid] at htaken'
      by_cases hmatch : row.topicFilter ≠ filter.asDatabaseValue
      · rw [if_pos hmatch] at htaken htaken'
        have hexec : exec e fan (.openConsumer name filter now) a =
            (a, .error (.consumerConfigurationMismatch name)) := replying_error htaken
        have hexec' : exec e fan (.openConsumer name filter now) b =
            (b, .error (.consumerConfigurationMismatch name)) := replying_error htaken'
        rw [hexec, hexec']
        exact ⟨h, rfl⟩
      · rw [if_neg hmatch] at htaken htaken'
        have hexec : exec e fan (.openConsumer name filter now) a =
            (reopenedDb a, .ok (.opened ⟨row.id, name, filter⟩)) := replying_ok htaken
        have hexec' : exec e fan (.openConsumer name filter now) b =
            (reopenedDb b, .ok (.opened ⟨row.id, name, filter⟩)) := replying_ok htaken'
        rw [hexec, hexec'] at hlog hknown ⊢
        rw [hexec] at hinv
        rw [hexec'] at hinv'
        have hseq : a.consumers.seq + 1 = b.consumers.seq + 1 := by rw [h.seq]
        refine ⟨h.assemble hinv hinv' hlog hseq h.identities hknown fun c hlt _ _ => ?_, rfl⟩
        have hgone : a.consumers.lookup c = none := lookup_beyond hlt
        have hgone' : b.consumers.lookup c = none := lookup_beyond (h.seq ▸ hlt)
        obtain ⟨hdeliveries, harchives⟩ := unused_inbox h.inv hgone
        obtain ⟨hdeliveries', harchives'⟩ := unused_inbox h.inv' hgone'
        exact .empty hgone hgone' hdeliveries hdeliveries' harchives harchives'

/-- A publish and a prune leave the rows of the consumers as they are. -/
theorem consumers_effect {fan : Inner} {db db' : Db} {op : Op} {reply : Except Error Reply}
    (heffect : Effect fan db op db' reply)
    (hop : (∃ messages now, op = .publishBatch messages now) ∨ ∃ prune, op = .pruneMessages prune) :
    db'.consumers = db.consumers := by
  cases heffect with
  | @published messages now hle => exact (ledgerAt_parts now db messages).2.1
  | pruned | rejected | idle => rfl
  | created | reopened | granted | acked | nacked | extended | archived | redriven |
    purged | drained
  | deleted => rcases hop with ⟨messages, now, hop⟩ | ⟨prune, hop⟩ <;> cases hop

/-- A publish or a prune of the store. -/
theorem AlikeBut.logged (h : AlikeBut apart a b) (e : Engine) (fan : Inner) {op : Op}
    (hop : (∃ messages now, op = .publishBatch messages now) ∨ ∃ prune, op = .pruneMessages prune) :
    AlikeBut apart (exec e fan op a).1 (exec e fan op b).1 := by
  have hconsumers := consumers_effect (exec_effect e fan op h.inv) hop
  have hconsumers' := consumers_effect (exec_effect e fan op h.inv') hop
  have hthrough : System.through op = none := by
    rcases hop with ⟨messages, now, rfl⟩ | ⟨prune, rfl⟩ <;> rfl
  refine h.assemble (inv_effect (exec_effect e fan op h.inv) h.inv)
    (inv_effect (exec_effect e fan op h.inv') h.inv')
    (h.log.exec h.inv h.inv' e fan op op fun _ _ => Iff.rfl)
      (by rw [hconsumers, hconsumers', h.seq])
    (fun c => by rw [hconsumers, hconsumers', h.identities])
    (fun c hle hle' hc => (h.inbox c hc).store h.log h.inv h.inv' e fan hthrough hle hle')
    fun c hlt hle _ => ?_
  rw [hconsumers] at hle
  omega

/-- The answer of a publish depends on what both stores share. -/
theorem AlikeBut.outcomes (h : AlikeBut apart a b) (e : Engine) (fan : Inner)
    (messages : List Publish) (now : ℤ) : (exec e fan (.publishBatch messages now) a).2 =
      (exec e fan (.publishBatch messages now) b).2 := by
  rw [exec_publishBatch, exec_publishBatch, (h.log.assigned now messages).2]
  cases publishRefusal fan messages now with
  | some err => rfl
  | none => rfl

/-- The rows found under one name, of a consumer that is not set apart. -/
theorem AlikeBut.abreast (h : AlikeBut apart a b) {name : String} {row row' : ConsumerRow}
    (hapart : ¬apart row.id) (hleft : consumerNamed a name = some row)
    (hright : consumerNamed b name = some row')
    (hid : row.id = row'.id) : Abreast a b row row' := by
  obtain ⟨hmem, -⟩ := consumerNamed_some hleft
  obtain ⟨hmem', -⟩ := consumerNamed_some hright
  have hinbox := h.inbox row.id hapart
  have hrow := AutoTable.lookup_key hmem
  have hrow' := AutoTable.lookup_key hmem'
  have hplain : plain row = plain row' := by
    have hrows := hinbox.row
    rw [hrow, hid, hrow'] at hrows
    exact Option.some.inj hrows
  exact ⟨h.log, hinbox, hrow, hrow', hplain, h.inv, h.inv'⟩

/-- A deletion of a consumer that is not set apart. -/
theorem AlikeBut.deleted (h : AlikeBut apart a b) (e : Engine) (fan : Inner) (name : String)
    (mode : DeleteMode)
    (hspared : ∀ row, consumerNamed a name = some row → ¬apart row.id) :
    AlikeBut apart (exec e fan (.deleteConsumer name mode) a).1
        (exec e fan (.deleteConsumer name mode) b).1 ∧
      (exec e fan (.deleteConsumer name mode) a).2 =
        (exec e fan (.deleteConsumer name mode) b).2 := by
  rcases h.named name with ⟨hleft, hright⟩ | ⟨row, row', hleft, hright, hid, -⟩
  · have hfail : ∀ db, consumerNamed db name = none →
        exec e fan (.deleteConsumer name mode) db = (db, .error (.consumerNotFound name)) :=
      fun db hfree => replying_error (deleteConsumer_free hfree)
    rw [hfail a hleft, hfail b hright]
    exact ⟨h, rfl⟩
  · have habreast := h.abreast (hspared row hleft) hleft hright hid
    refine ⟨?_, (habreast.deleted e fan mode hleft hright).answer⟩
    have hdelete : deleteConsumer name mode a = _ := deleteConsumer_eq hleft
    have hdelete' : deleteConsumer name mode b = _ := deleteConsumer_eq hright
    rw [← habreast.refusal] at hdelete'
    have hinv := inv_effect (exec_effect e fan (.deleteConsumer name mode) h.inv) h.inv
    have hinv' := inv_effect (exec_effect e fan (.deleteConsumer name mode) h.inv') h.inv'
    have hlog := h.log.exec h.inv h.inv' e fan (.deleteConsumer name mode)
      (.deleteConsumer name mode) fun _ _ => Iff.rfl
    have hknown : ∀ c, c ≤ a.consumers.seq → c ≤ b.consumers.seq → ¬apart c →
        SameInbox c (exec e fan (.deleteConsumer name mode) a).1
          (exec e fan (.deleteConsumer name mode) b).1 := fun c hle hle' hc =>
      (h.inbox c hc).store h.log h.inv h.inv' e fan rfl hle hle'
    cases hrefusal : deleteRefusal name mode a row with
    | some err =>
      rw [hrefusal] at hdelete hdelete'
      have hexec : exec e fan (.deleteConsumer name mode) a = (a, .error err) :=
        replying_error hdelete
      have hexec' : exec e fan (.deleteConsumer name mode) b = (b, .error err) :=
        replying_error hdelete'
      rw [hexec, hexec']
      exact h
    | none =>
      rw [hrefusal] at hdelete hdelete'
      have hexec : (exec e fan (.deleteConsumer name mode) a).1 = deletedDb a row :=
        congrArg Prod.fst (replying_ok hdelete)
      have hexec' : (exec e fan (.deleteConsumer name mode) b).1 = deletedDb b row' :=
        congrArg Prod.fst (replying_ok hdelete')
      rw [hexec, hexec'] at hlog hknown ⊢
      rw [hexec] at hinv
      rw [hexec'] at hinv'
      refine h.assemble hinv hinv' hlog h.seq (fun c => ?_) hknown fun c hlt hle _ => ?_
      · by_cases hc : row.id = c
        · subst hc
          rw [(deletedDb_empty a row).1, hid, (deletedDb_empty b row').1]
        · rw [(untouched_deletedDb hc).row, (untouched_deletedDb (hid ▸ hc)).row, h.identities]
      · have hle : c ≤ a.consumers.seq := hle
        omega

/-- The same operation of the store on both. -/
theorem AlikeBut.store (h : AlikeBut apart a b) (e : Engine) (fan : Inner) {op : Op}
    (hthrough : System.through op = none)
    (hspared : ∀ name mode, op = .deleteConsumer name mode →
      ∀ row, consumerNamed a name = some row → ¬apart row.id) :
    AlikeBut apart (exec e fan op a).1 (exec e fan op b).1 ∧
      ((∀ prune, op ≠ .pruneMessages prune) → (exec e fan op a).2 = (exec e fan op b).2) := by
  cases op with
  | openConsumer name filter now =>
    exact (h.opened e fan name filter now).imp_right fun hanswer _ => hanswer
  | publishBatch messages now =>
    exact ⟨h.logged e fan (.inl ⟨messages, now, rfl⟩), fun _ => h.outcomes e fan messages now⟩
  | deleteConsumer name mode =>
    exact (h.deleted e fan name mode (hspared name mode rfl)).imp_right fun hanswer _ => hanswer
  | pruneMessages prune =>
    exact ⟨h.logged e fan (.inr ⟨prune, rfl⟩), fun hne => absurd rfl (hne prune)⟩
  | claim | ackBatch | nackBatch | extendVisibilityBatch | archiveBatch | redriveBatch
  | purgeArchives | beginDraining => cases hthrough

end Parallel

end LiteFan.Alike
