import EBTree.Engine.Proof.Current
import EBTree.Sharded.Run

/-!
# A sharded engine is its shards

* `Follows`: a shard is reached by the run of calls it got, and its own history is that of the engine
  restricted to the keys that are routed to it.
* `Follows.call`, `Follows.still`: what a call does to one shard.
* `step_becomes`: what it does to all of them.
* `Run.follows`: **every run of the engine is a run of each of its shards.**
-/

set_option autoImplicit false

namespace EBTree.Sharded

open Lib EBTree.Engine

variable {ok : Engine.Op → Prop} {e e' : Engine} {h h' : History} {i n : Nat} {sh : Shard}
  {opts : EngineOptions} {s s' : ShardEngine}

/-! ## Routing -/

theorem routeShard_lt (key : Key) (hn : 0 < n) : routeShard key n < n := by
  unfold routeShard
  split
  · exact hn
  · exact Nat.mod_lt _ hn

/-- The writes to the keys of a shard. -/
def writesOf (h : History) (n i : Nat) : List Write :=
  h.writes.filter fun w => routeShard w.record.key n = i

theorem writesOf_append (ws : List Write) (cs cs' : List UInt32) (h : History) :
    writesOf ⟨h.writes ++ ws, cs⟩ n i = writesOf h n i ++ writesOf ⟨ws, cs'⟩ n i :=
  List.filter_append _ _

/-- A write is of the key it was requested for. -/
theorem wrote_key {r : ShardEngine.WriteRequest} {w : Write} (hw : w ∈ s.wrote r) :
    w.record.key = r.key := by
  unfold ShardEngine.wrote at hw
  split at hw
  · exact absurd hw List.not_mem_nil
  · split at hw
    · exact absurd hw List.not_mem_nil
    · rw [List.mem_singleton.1 hw]
      rfl

theorem writesOf_wrote (r : ShardEngine.WriteRequest) (cs : List UInt32) :
    writesOf ⟨s.wrote r, cs⟩ n i = if routeShard r.key n = i then s.wrote r else [] := by
  unfold writesOf
  split
  · rename_i hr
    exact List.filter_eq_self.2 fun w hw => by simpa [wrote_key hw] using hr
  · rename_i hr
    exact List.filter_eq_nil_iff.2 fun w hw => by simpa [wrote_key hw] using hr

/-- The newest write of a key is in the shard of the key. -/
theorem newest_writesOf (h : History) (cs : List UInt32) (key : Key) :
    History.newest ⟨writesOf h n (routeShard key n), cs⟩ key = h.newest key := by
  unfold History.newest writesOf
  rw [← List.filter_reverse, List.find?_filter]
  congr 2
  funext w
  by_cases hk : w.record.key = key <;> simp [hk]

/-! ## One shard -/

@[simp] theorem ensure_opened (opts : EngineOptions) (s : ShardEngine) :
    (Shard.opened s).ensure opts = s := rfl

/-- What a call of a shard writes there. -/
def wroteBy (s : ShardEngine) : Engine.Op → List Write
  | .write r => s.wrote r
  | _ => []

/-- The commit records a call of a shard writes there. -/
def committedBy : Engine.Op → List UInt32
  | .appendTxnCommit txnId => [txnId]
  | _ => []

theorem after_eq (h : History) (s : ShardEngine) (o : Engine.Op) :
    h.after s o = ⟨h.writes ++ wroteBy s o, h.commits ++ committedBy o⟩ := by
  cases o <;> simp [History.after, wroteBy, committedBy]

/-- The shard `i` of `n` is a shard engine of its own: its history is what the engine wrote to its
keys, and its commits are among those of the engine. -/
structure Follows (ok : Engine.Op → Prop) (opts : EngineOptions) (h : History) (n i : Nat)
    (sh : Shard) : Prop where
  closed : ∀ files, sh = .closed files → files = ShardFiles.none
  run : ∃ commits, commits.Sublist h.commits ∧
    EBTree.Engine.Run (fun _ _ o => ok o) (sh.ensure opts) ⟨writesOf h n i, commits⟩

/-- A call that leaves the shard alone, and writes to no key of it. -/
theorem Follows.still (hf : Follows ok opts h n i sh) (hw : writesOf h' n i = writesOf h n i)
    (hc : h.commits.Sublist h'.commits) : Follows ok opts h' n i sh := by
  obtain ⟨commits, hsub, hr⟩ := hf.run
  exact ⟨hf.closed, commits, hsub.trans hc, by rwa [hw]⟩

/-- A call the shard gets. -/
theorem Follows.call (hf : Follows ok opts h n i sh) {o : Engine.Op} (ho : ok o)
    (hcount : (sh.ensure opts).wal.maxLsn + 1 < Wal.kWalMagicV2) (hp : ∀ txnId, o ≠ .promoteTxn txnId)
    (hs : (sh.ensure opts).step o = some s')
    (hw : writesOf h' n i = writesOf h n i ++ wroteBy (sh.ensure opts) o)
    (hc : h'.commits = h.commits ++ committedBy o) : Follows ok opts h' n i (.opened s') := by
  obtain ⟨commits, hsub, hr⟩ := hf.run
  refine ⟨nofun, commits ++ committedBy o, ?_, ?_⟩
  · rw [hc]
    exact hsub.append (List.Sublist.refl _)
  · have hnext := hr.step ⟨hcount, fun txnId he => absurd he (hp txnId)⟩ ho hs
    rw [after_eq] at hnext
    rw [hw]
    exact hnext

/-- A call never promotes a transaction. -/
theorem calls_promote {op : Op} {o : Engine.Op} (hc : e.calls i s op = some o) (txnId : UInt32) :
    o ≠ .promoteTxn txnId := by
  rintro rfl
  cases op <;> simp only [Engine.calls] at hc <;>
    first
    | cases hc
    | (split at hc <;> cases hc)

/-! ## All shards -/

/-- Every shard follows. -/
structure AllFollow (ok : Engine.Op → Prop) (e : Engine) (h : History) : Prop where
  pos : 0 < e.shards.length
  each : ∀ i sh, e.shards[i]? = some sh → Follows ok e.opts h e.shards.length i sh

/-- The call that the shard `i` would get writes nothing. -/
def Silent (e : Engine) (op : Op) (i : Nat) (sh : Shard) : Prop :=
  ∀ o, e.calls i (sh.ensure e.opts) op = some o → wroteBy (sh.ensure e.opts) o = []

/-- What the shard `i` may become: a shard may be passed over by a call that writes nothing. -/
inductive Becomes (e : Engine) (op : Op) (i : Nat) (sh : Shard) : Shard → Prop
  | still : Silent e op i sh → Becomes e op i sh sh
  | called {o : Engine.Op} {s' : ShardEngine} :
      e.calls i (sh.ensure e.opts) op = some o → (sh.ensure e.opts).step o = some s' →
      Becomes e op i sh (.opened s')

/-- The shards become what the call makes of them one by one. -/
def EachBecomes (e : Engine) (op : Op) (shards : List Shard) : Prop :=
  shards.length = e.shards.length ∧
    ∀ i sh', shards[i]? = some sh' → ∃ sh, e.shards[i]? = some sh ∧ Becomes e op i sh sh'

/-- A call on the shard of a key. -/
theorem onKey_shards {α : Type} {key : Key}
    {f : ShardEngine → Option (ShardEngine × Except Status α)} {r : Except Status α}
    (hpos : 0 < e.shards.length) (hs : e.onKey key f = some (e', r)) :
    ∃ sh x, e.shards[e.shardOf key]? = some sh ∧ f (sh.ensure e.opts) = some x ∧
      e' = { e with shards := e.shards.set (e.shardOf key) (.opened x.1) } ∧ r = x.2 := by
  unfold Engine.onKey Engine.onShard at hs
  have hlt : routeShard key e.shards.length < e.shards.length := routeShard_lt key hpos
  rw [List.getElem?_eq_getElem hlt] at hs
  obtain ⟨x, hx, he⟩ := Option.map_eq_some_iff.1 hs
  cases he
  exact ⟨_, x, List.getElem?_eq_getElem hlt, hx, rfl, rfl⟩

theorem getElem?_set_cases {α : Type} {l : List α} {j : Nat} {a b : α}
    (hb : (l.set j a)[i]? = some b) : (i = j ∧ b = a) ∨ (i ≠ j ∧ l[i]? = some b) := by
  rw [List.getElem?_set] at hb
  split at hb
  · split at hb
    · exact .inl ⟨by omega, (Option.some.inj hb).symm⟩
    · cases hb
  · exact .inr ⟨by omega, hb⟩

theorem onKey_becomes {α : Type} {key : Key} {op : Op}
    {f : ShardEngine → Option (ShardEngine × Except Status α)} {o : Engine.Op}
    (hpos : 0 < e.shards.length) (hs : (e.onKey key f).map (·.1) = some e')
    (hc : ∀ i s, e.calls i s op = if i = e.shardOf key then some o else none)
    (hf : ∀ s, s.step o = (f s).map (·.1)) :
    e'.opts = e.opts ∧ EachBecomes e op e'.shards := by
  obtain ⟨⟨e1, r⟩, hk, he⟩ := Option.map_eq_some_iff.1 hs
  obtain ⟨sh, x, hsh, hx, rfl, -⟩ := onKey_shards hpos hk
  cases he
  refine ⟨rfl, List.length_set, fun i sh' hi => ?_⟩
  rcases getElem?_set_cases hi with ⟨rfl, rfl⟩ | ⟨hne, hi⟩
  · exact ⟨sh, hsh, .called ((hc _ _).trans (if_pos rfl)) (by rw [hf, hx]; rfl)⟩
  · refine ⟨sh', hi, .still fun o' ho' => ?_⟩
    rw [hc, if_neg hne] at ho'
    cases ho'

theorem onOpened_becomes {op : Op} {f : Nat → ShardEngine → ShardEngine}
    (hq : ∀ i sh, Silent e op i sh)
    (hc : ∀ i s, ∃ o, e.calls i s op = some o ∧ s.step o = some (f i s)) :
    EachBecomes e op (e.onOpened f).shards := by
  refine ⟨List.length_mapIdx, fun i sh' hi => ?_⟩
  rw [Engine.onOpened, List.getElem?_mapIdx] at hi
  obtain ⟨sh, hsh, rfl⟩ := Option.map_eq_some_iff.1 hi
  refine ⟨sh, hsh, ?_⟩
  cases sh with
  | closed files => exact .still (hq _ _)
  | opened s =>
    obtain ⟨o, ho, hs⟩ := hc i s
    exact .called ho hs

/-- A flush or a checkpoint: the shards up to the one that fails get their call. -/
theorem eachOpened_becomes {op : Op}
    {f : Nat → ShardEngine → Option (ShardEngine × Except Status Unit)}
    (hq : ∀ i sh, Silent e op i sh)
    (hc : ∀ i s, ∃ o, e.calls i s op = some o ∧ s.step o = (f i s).map (·.1)) :
    ∀ (shards : List Shard) (i : Nat) (out : List Shard) (r : Except Status Unit),
      eachOpened f i shards = some (out, r) → out.length = shards.length ∧
        ∀ j sh', out[j]? = some sh' → ∃ sh, shards[j]? = some sh ∧ Becomes e op (i + j) sh sh' := by
  intro shards
  induction shards with
  | nil =>
    intro i out r hr
    cases hr
    exact ⟨rfl, fun j sh' hj => by simp at hj⟩
  | cons sh shards ih =>
    intro i out r hr
    -- the shards after this one, when the loop goes on to them
    have hgo : ∀ sh', Becomes e op i sh sh' → ∀ out,
        (eachOpened f (i + 1) shards).map (fun x => (sh' :: x.1, x.2)) = some (out, r) →
        out.length = (sh :: shards).length ∧ ∀ j sh'', out[j]? = some sh'' →
          ∃ sh0, (sh :: shards)[j]? = some sh0 ∧ Becomes e op (i + j) sh0 sh'' := by
      intro sh' hb out hr
      obtain ⟨⟨out', r'⟩, hx, he⟩ := Option.map_eq_some_iff.1 hr
      cases he
      obtain ⟨hl, hget⟩ := ih (i + 1) out' r' hx
      refine ⟨by simp [hl], fun j sh'' hj => ?_⟩
      cases j with
      | zero =>
        cases hj
        exact ⟨sh, rfl, hb⟩
      | succ j =>
        obtain ⟨sh0, h0, hb0⟩ := hget j sh'' hj
        exact ⟨sh0, h0, by rwa [show i + (j + 1) = i + 1 + j by omega]⟩
    cases sh with
    | closed files => exact hgo _ (.still (hq _ _)) out hr
    | opened s =>
      obtain ⟨o, ho, hstep⟩ := hc i s
      unfold eachOpened at hr
      split at hr
      · cases hr
      · rename_i s' err hf
        cases hr
        refine ⟨rfl, fun j sh'' hj => ?_⟩
        cases j with
        | zero =>
          cases hj
          exact ⟨_, rfl, .called ho (by rw [ensure_opened, hstep, hf]; rfl)⟩
        | succ j => exact ⟨sh'', hj, .still (hq _ _)⟩
      · rename_i s' hf
        exact hgo _ (.called ho (by rw [ensure_opened, hstep, hf]; rfl)) out hr

/-- The scans: each shard that is open, or has files, gets its call. -/
theorem scanShards_becomes {op : Op}
    {f : Nat → ShardEngine → Option (ShardEngine × Except Status (List ShardEngine.Row))}
    (hq : ∀ i sh, Silent e op i sh)
    (hc : ∀ i s, ∃ o, e.calls i s op = some o ∧ s.step o = (f i s).map (·.1)) :
    ∀ (shards : List Shard) (i : Nat) (out : List Shard) (r : Except Status (List ShardEngine.Row)),
      scanShards e.opts f i shards = some (out, r) → out.length = shards.length ∧
        ∀ j sh', out[j]? = some sh' → ∃ sh, shards[j]? = some sh ∧ Becomes e op (i + j) sh sh' := by
  intro shards
  induction shards with
  | nil =>
    intro i out r hr
    cases hr
    exact ⟨rfl, fun j sh' hj => by simp at hj⟩
  | cons sh shards ih =>
    intro i out r hr
    unfold scanShards at hr
    split at hr
    · rename_i sh1 r1 out1 rs1 h1 h2
      cases hr
      obtain ⟨hl, hget⟩ := ih (i + 1) out1 rs1 h2
      refine ⟨by simp [hl], fun j sh'' hj => ?_⟩
      cases j with
      | zero =>
        cases hj
        refine ⟨sh, rfl, ?_⟩
        obtain ⟨o, ho, hstep⟩ := hc i (sh.ensure e.opts)
        -- the scan of the shard, once it is open
        have hcalled : ∀ x, f i (sh.ensure e.opts) = some x →
            Becomes e op (i + 0) sh (.opened x.1) := fun x hx =>
          .called ho (by rw [hstep, hx]; rfl)
        unfold scanShard at h1
        split at h1
        · split at h1
          · obtain ⟨x, hx, he⟩ := Option.map_eq_some_iff.1 h1
            cases he
            exact hcalled x hx
          · cases h1
            exact .still (hq _ _)
        · obtain ⟨x, hx, he⟩ := Option.map_eq_some_iff.1 h1
          cases he
          exact hcalled x hx
      | succ j =>
        obtain ⟨sh0, h0, hb0⟩ := hget j sh'' hj
        exact ⟨sh0, h0, by rwa [show i + (j + 1) = i + 1 + j by omega]⟩
    · cases hr

theorem scanWith_becomes {op : Op}
    {one : ShardEngine → Option (ShardEngine × Except Status (List ShardEngine.Row))}
    {each : Nat → ShardEngine → Option (ShardEngine × Except Status (List ShardEngine.Row))}
    (hq : ∀ i sh, Silent e op i sh) (hs : (e.scanWith one each).map (·.1) = some e')
    (hone : e.shards.length = 1 → ∀ s, ∃ o, e.calls 0 s op = some o ∧ s.step o = (one s).map (·.1))
    (heach : e.shards.length ≠ 1 →
      ∀ i s, ∃ o, e.calls i s op = some o ∧ s.step o = (each i s).map (·.1)) :
    e'.opts = e.opts ∧ EachBecomes e op e'.shards := by
  unfold Engine.scanWith at hs
  split at hs
  · rename_i hl
    obtain ⟨sh, hsh⟩ := List.length_eq_one_iff.1 hl
    unfold Engine.onShard at hs
    rw [hsh] at hs
    obtain ⟨y, hy, he⟩ := Option.map_eq_some_iff.1 hs
    obtain ⟨x, hx, rfl⟩ := Option.map_eq_some_iff.1 hy
    cases he
    obtain ⟨o, ho, hstep⟩ := hone hl (sh.ensure e.opts)
    refine ⟨rfl, by simp [hsh], fun i sh' hi => ?_⟩
    cases i with
    | zero =>
      cases hi
      exact ⟨sh, by rw [hsh]; rfl, .called ho (by rw [hstep, hx]; rfl)⟩
    | succ i => simp at hi
  · rename_i hl
    obtain ⟨y, hy, he⟩ := Option.map_eq_some_iff.1 hs
    obtain ⟨⟨out, r⟩, hx, rfl⟩ := Option.map_eq_some_iff.1 hy
    cases he
    obtain ⟨hlen, hget⟩ := scanShards_becomes hq (heach hl) e.shards 0 out r hx
    refine ⟨rfl, hlen, fun i sh' hi => ?_⟩
    obtain ⟨sh, h0, hb⟩ := hget i sh' hi
    exact ⟨sh, h0, by rwa [Nat.zero_add] at hb⟩

/-- A call that writes nothing is silent everywhere. -/
theorem silent_of_wroteBy {op : Op} (hw : ∀ i s o, e.calls i s op = some o → wroteBy s o = [])
    (i : Nat) (sh : Shard) : Silent e op i sh := fun o ho => hw i _ o ho

/-- **What a call does to the shards**: each gets its call, or is passed over by one that writes
nothing. -/
theorem step_becomes (hpos : 0 < e.shards.length) {op : Op} (hs : e.step op = some e') :
    e'.opts = e.opts ∧ EachBecomes e op e'.shards := by
  cases op with
  | put key value txnId => exact onKey_becomes hpos hs (fun _ _ => rfl) fun _ => rfl
  | delete key txnId => exact onKey_becomes hpos hs (fun _ _ => rfl) fun _ => rfl
  | get key => exact onKey_becomes hpos hs (fun _ _ => rfl) fun _ => rfl
  | getAtSnapshot key token readerTxnId =>
    refine @onKey_becomes _ _ _ key _ _
      (.getAtSnapshot key ⟨readerTxnId, token.forShard (e.shardOf key)⟩) hpos hs (fun i s => ?_)
      fun _ => rfl
    by_cases hi : i = e.shardOf key
    · subst hi
      rfl
    · simp only [Engine.calls, if_neg hi]
  | resolveLsnAtSnapshot key token =>
    refine @onKey_becomes _ _ _ key _ _
      (.resolveLsnAtSnapshot key (token.forShard (e.shardOf key))) hpos hs (fun i s => ?_)
      fun _ => rfl
    by_cases hi : i = e.shardOf key
    · subst hi
      rfl
    · simp only [Engine.calls, if_neg hi]
  | resolveCurrentCommittedLsn key => exact onKey_becomes hpos hs (fun _ _ => rfl) fun _ => rfl
  | scan plan =>
    exact scanWith_becomes (silent_of_wroteBy fun _ _ _ ho => by cases ho; rfl) hs
      (fun hl s => ⟨.scan plan, by simp only [Engine.calls, hl, if_true], rfl⟩)
      fun hl i s =>
        ⟨.scan (Engine.shardPlan plan s), by simp only [Engine.calls, if_neg hl], rfl⟩
  | scanAtSnapshot plan token readerTxnId =>
    exact scanWith_becomes (silent_of_wroteBy fun _ _ _ ho => by cases ho; rfl) hs
      (fun _ s => ⟨_, rfl, rfl⟩) fun _ i s => ⟨_, rfl, rfl⟩
  | pinSnapshot token =>
    cases hs
    exact ⟨rfl, onOpened_becomes (silent_of_wroteBy fun _ _ _ ho => by cases ho; rfl)
      fun i s => ⟨_, rfl, rfl⟩⟩
  | releaseSnapshot =>
    cases hs
    exact ⟨rfl, onOpened_becomes (silent_of_wroteBy fun _ _ _ ho => by cases ho; rfl)
      fun i s => ⟨_, rfl, rfl⟩⟩
  | appendTxnBegin txnId token =>
    cases hs
    refine ⟨rfl, List.length_mapIdx, fun i sh' hi => ?_⟩
    rw [Engine.appendTxnBegin, List.getElem?_mapIdx] at hi
    obtain ⟨sh, hsh, rfl⟩ := Option.map_eq_some_iff.1 hi
    exact ⟨sh, hsh, .called rfl rfl⟩
  | appendTxnCommit txnId =>
    cases hs
    exact ⟨rfl, onOpened_becomes (silent_of_wroteBy fun _ _ _ ho => by cases ho; rfl)
      fun i s => ⟨_, rfl, rfl⟩⟩
  | appendTxnAbort txnId =>
    cases hs
    exact ⟨rfl, onOpened_becomes (silent_of_wroteBy fun _ _ _ ho => by cases ho; rfl)
      fun i s => ⟨_, rfl, rfl⟩⟩
  | flush ords =>
    obtain ⟨y, hy, he⟩ := Option.map_eq_some_iff.1 hs
    obtain ⟨⟨out, r⟩, hx, rfl⟩ := Option.map_eq_some_iff.1 hy
    cases he
    refine ⟨rfl, ?_⟩
    simpa [EachBecomes] using eachOpened_becomes
      (silent_of_wroteBy fun _ _ _ ho => by cases ho; rfl) (fun i s => ⟨_, rfl, rfl⟩) e.shards 0 out
      r hx
  | checkpoint ords hooks =>
    obtain ⟨y, hy, he⟩ := Option.map_eq_some_iff.1 hs
    obtain ⟨⟨out, r⟩, hx, rfl⟩ := Option.map_eq_some_iff.1 hy
    cases he
    refine ⟨rfl, ?_⟩
    simpa [EachBecomes] using eachOpened_becomes
      (silent_of_wroteBy fun _ _ _ ho => by cases ho; rfl) (fun i s => ⟨_, rfl, rfl⟩) e.shards 0 out
      r hx
  | groupCommit =>
    cases hs
    exact ⟨rfl, onOpened_becomes (silent_of_wroteBy fun _ _ _ ho => by cases ho; rfl)
      fun i s => ⟨_, rfl, rfl⟩⟩
  | recoverFull =>
    cases hs
    exact ⟨rfl, onOpened_becomes (silent_of_wroteBy fun _ _ _ ho => by cases ho; rfl)
      fun i s => ⟨_, rfl, rfl⟩⟩
  | registerRangeTicket ticket =>
    cases hs
    exact ⟨rfl, rfl, fun i sh hi =>
      ⟨sh, hi, .still (silent_of_wroteBy (fun _ _ _ ho => by cases ho) _ _)⟩⟩
  | unregisterRangeTickets txnId =>
    cases hs
    exact ⟨rfl, rfl, fun i sh hi =>
      ⟨sh, hi, .still (silent_of_wroteBy (fun _ _ _ ho => by cases ho) _ _)⟩⟩

/-! ## The history -/

/-- What the shard `i` adds to the history of the engine: what its call writes there. -/
theorem writesOf_historyAfter (h : History) {op : Op} (hsh : e.shards[i]? = some sh) :
    writesOf (historyAfter h e op) e.shards.length i = writesOf h e.shards.length i ++
      ((e.calls i (sh.ensure e.opts) op).map (wroteBy (sh.ensure e.opts))).getD [] := by
  -- a write to a key is one to the shard of the key
  have hwrite : ∀ r : ShardEngine.WriteRequest,
      writesOf ⟨h.writes ++ e.wrote r, h.commits⟩ e.shards.length i =
        writesOf h e.shards.length i ++ (((if i = e.shardOf r.key then
          some (Engine.Op.write r) else none)).map (wroteBy (sh.ensure e.opts))).getD [] := by
    intro r
    rw [writesOf_append _ _ [] h]
    congr 1
    unfold Engine.wrote
    cases hr : e.shards[e.shardOf r.key]? with
    | none =>
      rw [if_neg (fun hi => by rw [← hi, hsh] at hr; cases hr)]
      rfl
    | some sh0 =>
      rw [Option.map_some, Option.getD_some, writesOf_wrote]
      by_cases hi : i = e.shardOf r.key
      · rw [if_pos (show routeShard r.key e.shards.length = i from hi.symm), if_pos hi]
        rw [← hi, hsh] at hr
        cases hr
        rfl
      · rw [if_neg (show ¬ routeShard r.key e.shards.length = i from fun hc => hi hc.symm),
          if_neg hi]
        rfl
  have hnone : ∀ {o : Engine.Op}, (∀ s, wroteBy s o = []) → writesOf h e.shards.length i =
      writesOf h e.shards.length i ++ ((some o).map (wroteBy (sh.ensure e.opts))).getD [] := by
    intro o ho
    simp [ho]
  have hkey : ∀ {o : Engine.Op} {key : Key}, (∀ s, wroteBy s o = []) →
      writesOf h e.shards.length i = writesOf h e.shards.length i ++ ((if i = e.shardOf key then
        some o else none).map (wroteBy (sh.ensure e.opts))).getD [] := by
    intro o key ho
    split <;> simp [ho]
  cases op with
  | put key value txnId => exact hwrite _
  | delete key txnId => exact hwrite _
  | get key => exact hkey fun _ => rfl
  | getAtSnapshot key token readerTxnId => exact hkey fun _ => rfl
  | resolveLsnAtSnapshot key token => exact hkey fun _ => rfl
  | resolveCurrentCommittedLsn key => exact hkey fun _ => rfl
  | registerRangeTicket ticket => exact (List.append_nil _).symm
  | unregisterRangeTickets txnId => exact (List.append_nil _).symm
  | _ => exact hnone fun _ => rfl

/-- The commits of a shard are those of the engine, as far as it was open. -/
theorem commits_historyAfter (h : History) {op : Op} {s : ShardEngine} {o : Engine.Op}
    (hc : e.calls i s op = some o) :
    (historyAfter h e op).commits = h.commits ++ committedBy o := by
  cases op <;> simp only [Engine.calls] at hc <;>
    first
    | cases hc
      exact (List.append_nil _).symm
    | cases hc
      rfl
    | (split at hc <;> cases hc
       exact (List.append_nil _).symm)
    | cases hc

theorem commits_sublist (h : History) (e : Engine) (op : Op) :
    h.commits.Sublist (historyAfter h e op).commits := by
  cases op <;> simp [historyAfter]

/-! ## Runs -/

theorem open_replicate {eager : Bool}
    (ho : Engine.open opts eager (List.replicate n ShardFiles.none) = .ok e) :
    e.opts = opts ∧ e.shards.length = n ∧ 0 < n ∧ ∀ sh ∈ e.shards,
      (∀ files, sh = .closed files → files = ShardFiles.none) ∧
        sh.ensure opts = ShardEngine.open opts ShardFiles.none := by
  unfold Engine.open validateShardCount at ho
  rw [List.length_replicate] at ho
  by_cases hn : n = 1 ∨ n = 4 ∨ n = 16 ∨ n = 256
  · rw [if_pos hn] at ho
    cases ho
    refine ⟨rfl, by simp, by omega, fun sh hsh => ?_⟩
    rw [List.map_replicate] at hsh
    rw [List.eq_of_mem_replicate hsh]
    split
    · exact ⟨nofun, rfl⟩
    · exact ⟨fun files hf => by cases hf; rfl, rfl⟩
  · rw [if_neg hn] at ho
    cases ho

/-- **Every run of the engine is a run of each of its shards**: the shard was opened on no files and
got calls of its own, among which are all the writes to its keys and no others. -/
theorem Run.follows (hr : Run ok e h) : AllFollow ok e h := by
  induction hr with
  | opened ho =>
    obtain ⟨hopts, hlen, hpos, hall⟩ := open_replicate ho
    refine ⟨by omega, fun i sh hi => ?_⟩
    obtain ⟨hclosed, hens⟩ := hall sh (List.mem_of_getElem? hi)
    refine ⟨hclosed, [], List.Sublist.refl _, ?_⟩
    rw [hopts, hens]
    exact .opened _
  | @step e e' h op hr hcount hok hs ih =>
    obtain ⟨hopts, hlen, heach⟩ := step_becomes ih.pos hs
    refine ⟨by rw [hlen]; exact ih.pos, fun i sh' hi => ?_⟩
    obtain ⟨sh, hsh, hb⟩ := heach i sh' hi
    have hf := ih.each i sh hsh
    rw [hopts, hlen]
    have hw := @writesOf_historyAfter e i sh h op hsh
    cases hb with
    | still hq =>
      refine hf.still (hw.trans ?_) (commits_sublist h e op)
      cases hc : e.calls i (sh'.ensure e.opts) op with
      | none => exact List.append_nil _
      | some o =>
        rw [Option.map_some, Option.getD_some, hq o hc]
        exact List.append_nil _
    | called hc hstep =>
      rw [hc, Option.map_some, Option.getD_some] at hw
      exact hf.call (hok i sh _ hsh hc) (hcount sh (List.mem_of_getElem? hsh)) (calls_promote hc)
        hstep hw (commits_historyAfter h hc)

end EBTree.Sharded
