import ZzLang.Fs.CacheShard

/-!
# Runs of the cache

Sequence numbers are drawn from one counter, so the number of a thread is in no queue when its
insertion comes (`Orderly`), whatever the other threads and the world do in between. With that, all
shards keep their invariant.

That a hit has the contents of the file needs more than that contents go with fingerprints. A read
takes the metadata twice and the contents in between; a file that changes and is back before the
second time is not noticed. If a file does not take a fingerprint again while it is read, the
contents are those of the fingerprint (`Coherent`).
-/

namespace ZzLang.Fs.Cache

/-- The number that a thread has drawn. -/
def Thread.drawn : Thread → Option ℕ
  | .numbered _ _ _ seq => some seq
  | _ => none

/-! ### Order -/

/-- The invariant of all runs. -/
structure Orderly (s : State) : Prop where
  sound : ∀ i, Sound (s.shards i)
  older : ∀ i, ∀ slot ∈ (s.shards i).order, slot.seq < s.nextSeq
  drawn : ∀ t seq, (s.threads t).drawn = some seq →
    seq < s.nextSeq ∧ ∀ i, ∀ slot ∈ (s.shards i).order, slot.seq ≠ seq
  distinct : ∀ t t' seq, (s.threads t).drawn = some seq → (s.threads t').drawn = some seq → t = t'

section Orderly

variable {cfg : Config} {allowed : World → (ℕ → Thread) → Prop} {s s' : State} {t : ℕ}

theorem drawn_age (w : World) (th : Thread) : (th.age cfg w).drawn = th.drawn := by
  cases th <;> rfl

theorem drawn_setThread {th : Thread} (t' : ℕ) :
    ((s.setThread t th).threads t').drawn =
      if t' = t then th.drawn else (s.threads t').drawn := by
  rw [State.setThread]
  by_cases h : t' = t
  · subst h
    rw [if_pos rfl]
    exact congrArg Thread.drawn (Function.update_self ..)
  · rw [if_neg h]
    exact congrArg Thread.drawn (Function.update_of_ne h ..)

/-- A thread goes on without a number. -/
theorem Orderly.setThread (h : Orderly s) {th : Thread} (hth : th.drawn = none) :
    Orderly (s.setThread t th) := by
  have hold : ∀ t' seq, ((s.setThread t th).threads t').drawn = some seq →
      (s.threads t').drawn = some seq := by
    intro t' seq ht'
    rw [drawn_setThread] at ht'
    split at ht'
    · rw [hth] at ht'
      exact absurd ht' nofun
    · exact ht'
  exact ⟨h.sound, h.older, fun t' seq ht' => h.drawn t' seq (hold t' seq ht'),
    fun t' t'' seq ht' ht'' => h.distinct t' t'' seq (hold t' seq ht') (hold t'' seq ht'')⟩

/-- A shard changes without new slots. -/
theorem Orderly.setShard (h : Orderly s) {i : ℕ} {shard : Shard} (hs : Sound shard)
    (ho : shard.order = (s.shards i).order) : Orderly (s.setShard i shard) := by
  have horder : ∀ j, ((s.setShard i shard).shards j).order = (s.shards j).order := by
    intro j
    rw [State.setShard]
    by_cases hj : j = i
    · subst hj
      rw [← ho]
      exact congrArg Shard.order (Function.update_self ..)
    · exact congrArg Shard.order (Function.update_of_ne hj ..)
  refine ⟨fun j => ?_, fun j => ?_, fun t seq ht => ?_, h.distinct⟩
  · rw [State.setShard]
    by_cases hj : j = i
    · subst hj
      show Sound (Function.update s.shards j shard j)
      rwa [Function.update_self]
    · show Sound (Function.update s.shards i shard j)
      rw [Function.update_of_ne hj]
      exact h.sound j
  · rw [horder]
    exact h.older j
  · obtain ⟨hlt, hne⟩ := h.drawn t seq ht
    exact ⟨hlt, fun j => by rw [horder]; exact hne j⟩

/-- A thread draws a number, which is a new one. -/
theorem Orderly.number (h : Orderly s) (path : Path) (fp : Fingerprint) (bytes : Bytes) :
    Orderly ({ s with nextSeq := s.nextSeq + 1 }.setThread t (.numbered path fp bytes s.nextSeq)) := by
  have hcases : ∀ t' seq, (({ s with nextSeq := s.nextSeq + 1 }.setThread t
      (.numbered path fp bytes s.nextSeq)).threads t').drawn = some seq →
      t' = t ∧ seq = s.nextSeq ∨ (s.threads t').drawn = some seq ∧ seq < s.nextSeq := by
    intro t' seq ht'
    rw [drawn_setThread] at ht'
    split at ht'
    · exact .inl ⟨by assumption, (Option.some.inj ht').symm⟩
    · exact .inr ⟨ht', (h.drawn t' seq ht').1⟩
  refine ⟨h.sound, fun i slot hs => Nat.lt_succ_of_lt (h.older i slot hs), fun t' seq ht' => ?_,
    fun t' t'' seq ht' ht'' => ?_⟩
  · rcases hcases t' seq ht' with ⟨-, rfl⟩ | ⟨hd, hlt⟩
    · exact ⟨Nat.lt_succ_self _, fun i slot hs => (h.older i slot hs).ne⟩
    · exact ⟨Nat.lt_succ_of_lt hlt, (h.drawn t' seq hd).2⟩
  · rcases hcases t' seq ht' with ⟨rfl, hseq⟩ | ⟨hd, hlt⟩ <;>
      rcases hcases t'' seq ht'' with ⟨rfl, hseq'⟩ | ⟨hd', hlt'⟩
    · rfl
    · omega
    · omega
    · exact h.distinct t' t'' seq hd hd'

/-- The number of an insertion is in no queue. -/
theorem Orderly.fresh (h : Orderly s) {path : Path} {fp : Fingerprint} {bytes : Bytes} {seq : ℕ}
    (ht : s.threads t = .numbered path fp bytes seq) (i : ℕ) :
    seq ∉ (s.shards i).order.map (·.seq) := by
  intro hm
  obtain ⟨slot, hslot, heq⟩ := List.mem_map.mp hm
  exact (h.drawn t seq (by rw [ht]; rfl)).2 i slot hslot heq

/-- An insertion, and the thread is done. -/
theorem Orderly.insert (h : Orderly s) {path : Path} {fp : Fingerprint} {bytes : Bytes} {seq : ℕ}
    (ht : s.threads t = .numbered path fp bytes seq) :
    Orderly ((s.setShard (shardIndex path) (insertEntry cfg (s.shards (shardIndex path)) path
      ⟨fp, seq, bytes⟩)).setThread t .idle) := by
  have hdrawn : (s.threads t).drawn = some seq := by rw [ht]; rfl
  obtain ⟨shard, hshard⟩ :
    ∃ shard, insertEntry cfg (s.shards (shardIndex path)) path ⟨fp, seq, bytes⟩ = shard := ⟨_, rfl⟩
  have hsound : Sound shard :=
    hshard ▸ (@sound_insertEntry cfg _ path ⟨fp, seq, bytes⟩ (h.sound _) (h.fresh ht _)).1
  have hslots : ∀ slot ∈ shard.order, slot ∈ (s.shards (shardIndex path)).order ∨
      slot = ⟨path, seq⟩ := fun slot hs => mem_insertEntry_order (hshard ▸ hs)
  rw [hshard]
  -- The slots are those from before and the one with the number.
  have horder : ∀ i, ∀ slot ∈ ((s.setShard (shardIndex path) shard).shards i).order,
      slot ∈ (s.shards i).order ∨ slot.seq = seq := by
    intro i slot hs
    by_cases hi : i = shardIndex path
    · subst hi
      have hs : slot ∈ (Function.update s.shards (shardIndex path) shard (shardIndex path)).order := hs
      rw [Function.update_self] at hs
      exact (hslots slot hs).imp id fun heq => by rw [heq]
    · have hs : slot ∈ (Function.update s.shards (shardIndex path) shard i).order := hs
      rw [Function.update_of_ne hi] at hs
      exact .inl hs
  have hold : ∀ t' seq', (((s.setShard (shardIndex path) shard).setThread t .idle).threads
      t').drawn = some seq' → t' ≠ t ∧ (s.threads t').drawn = some seq' := by
    intro t' seq' ht'
    rw [drawn_setThread] at ht'
    split at ht'
    · exact absurd ht' nofun
    · exact ⟨by assumption, ht'⟩
  refine ⟨fun i => ?_, fun i slot hs => ?_, fun t' seq' ht' => ?_, fun t' t'' seq' ht' ht'' => ?_⟩
  · show Sound (Function.update s.shards (shardIndex path) shard i)
    by_cases hi : i = shardIndex path
    · subst hi
      rwa [Function.update_self]
    · rw [Function.update_of_ne hi]
      exact h.sound i
  · rcases horder i slot hs with hs | hs
    · exact h.older i slot hs
    · rw [hs]
      exact (h.drawn t seq hdrawn).1
  · obtain ⟨hne, hd⟩ := hold t' seq' ht'
    obtain ⟨hlt, hnot⟩ := h.drawn t' seq' hd
    refine ⟨hlt, fun i slot hs => ?_⟩
    rcases horder i slot hs with hs | hs
    · exact hnot i slot hs
    · rw [hs]
      rintro rfl
      exact hne (h.distinct t' t seq hd hdrawn)
  · exact h.distinct t' t'' seq' (hold t' seq' ht').2 (hold t'' seq' ht'').2

theorem orderly_start (w : World) : Orderly (State.start w) where
  sound _ := ⟨rfl, List.nodup_nil, fun _ _ he => absurd he nofun⟩
  older _ _ hs := absurd hs List.not_mem_nil
  drawn _ _ ht := absurd ht nofun
  distinct _ _ _ ht := absurd ht nofun

/-- **Each step** keeps the order. -/
theorem orderly_step {l : Label} (h : Orderly s) (hs : Step cfg allowed s l s') : Orderly s' := by
  have hdrop : ∀ path, Orderly (s.setShard (shardIndex path)
      (dropEntry (s.shards (shardIndex path)) path)) := fun path =>
    h.setShard (sound_dropEntry (h.sound _)) dropEntry_order
  cases hs with
  | world ha =>
    refine ⟨h.sound, h.older, fun t seq ht => h.drawn t seq ?_, fun t t' seq ht ht' =>
      h.distinct t t' seq ?_ ?_⟩
    all_goals rwa [← @drawn_age cfg]
  | probeStat path =>
    refine h.setThread ?_
    split <;> rfl
  | probeDrop ht => exact (hdrop _).setThread rfl
  | probeMiss ht hl => exact h.setThread rfl
  | probeHit ht hl hfp => exact h.setThread rfl
  | probeStale ht hl hfp => exact (hdrop _).setThread rfl
  | returned ht => exact h.setThread rfl
  | openFile hi hf => exact h.setThread rfl
  | stat ht => exact h.setThread rfl
  | load ht => exact h.setThread rfl
  | stable ht hfp => exact h.setThread rfl
  | giveUp ht => exact h.setThread rfl
  | number ht hb => exact h.number _ _ _
  | refuse ht hb => exact h.setThread rfl
  | insert ht => exact h.insert ht
  | invalidate path hi he => exact hdrop path
  | startPrefix pre hi he hp => exact h.setThread rfl
  | clearShard ht hi =>
    exact (h.setShard (sound_dropPrefix (h.sound _)) dropPrefix_order).setThread rfl
  | endPrefix ht hi => exact h.setThread rfl

/-- **Every reachable state** is in order. -/
theorem orderly_of_reachable {start : World → Prop} (h : Reachable cfg start allowed s) :
    Orderly s := by
  induction h with
  | start hw => exact orderly_start _
  | step _ hs ih => exact orderly_step ih hs

end Orderly

/-! ### Coherence -/

section Coherence

variable (cfg : Config) (contentsOf : Fingerprint → Bytes)

/-- The file has not got back the fingerprint that it had and left since the thread took it. -/
def NoReturn (w : World) : Thread → Prop
  | .statted _ f (some fp) false => w.fingerprint cfg f ≠ some fp
  | .loaded _ f (some fp) _ false => w.fingerprint cfg f ≠ some fp
  | _ => True

/-- The changes of the world under which hits are right. -/
def Calm (w : World) (threads : ℕ → Thread) : Prop :=
  Determined cfg contentsOf w ∧ ∀ t, NoReturn cfg w (threads t)

/-- What a thread knows. -/
def ThreadOk (w : World) : Thread → Prop
  | .probing _ (some fp) c => c = contentsOf fp
  | .hit e c => e.bytes = c
  | .statted _ f (some fp) kept => kept = true ↔ w.fingerprint cfg f = some fp
  | .loaded _ f (some fp) bytes kept =>
    (kept = true ↔ w.fingerprint cfg f = some fp) ∧ (kept = true → bytes = contentsOf fp)
  | .inserting _ fp bytes => bytes = contentsOf fp
  | .numbered _ fp bytes _ => bytes = contentsOf fp
  | _ => True

/-- The invariant of runs in which no fingerprint comes back. -/
structure Coherent (s : State) : Prop where
  world : Determined cfg contentsOf s.world
  entries : ∀ i path e, (s.shards i).map.lookup path = some e → e.bytes = contentsOf e.fingerprint
  threads : ∀ t, ThreadOk cfg contentsOf s.world (s.threads t)

variable {cfg contentsOf} {s s' : State} {t : ℕ}

theorem Coherent.setThread (h : Coherent cfg contentsOf s) {th : Thread}
    (hth : ThreadOk cfg contentsOf s.world th) : Coherent cfg contentsOf (s.setThread t th) := by
  refine ⟨h.world, h.entries, fun t' => ?_⟩
  show ThreadOk cfg contentsOf s.world (Function.update s.threads t th t')
  by_cases ht : t' = t
  · subst ht
    rwa [Function.update_self]
  · rw [Function.update_of_ne ht]
    exact h.threads t'

theorem Coherent.setShard (h : Coherent cfg contentsOf s) {i : ℕ} {shard : Shard}
    (hs : ∀ path e, shard.map.lookup path = some e → (s.shards i).map.lookup path = some e ∨
      e.bytes = contentsOf e.fingerprint) : Coherent cfg contentsOf (s.setShard i shard) := by
  refine ⟨h.world, fun j path e he => ?_, h.threads⟩
  have he : (Function.update s.shards i shard j).map.lookup path = some e := he
  by_cases hj : j = i
  · subst hj
    rw [Function.update_self] at he
    exact (hs path e he).elim (h.entries j path e) id
  · rw [Function.update_of_ne hj] at he
    exact h.entries j path e he

/-- What a thread knows it knows after a change that brings nothing back. -/
theorem threadOk_age {w w' : World} {th : Thread} (h : ThreadOk cfg contentsOf w th)
    (hn : NoReturn cfg w' (th.age cfg w')) : ThreadOk cfg contentsOf w' (th.age cfg w') := by
  have hkept : ∀ {f : File} {fp : Fingerprint} {kept : Bool},
      ((kept && decide (w'.fingerprint cfg f = some fp)) = false → w'.fingerprint cfg f ≠ some fp) →
      ((kept && decide (w'.fingerprint cfg f = some fp)) = true ↔ w'.fingerprint cfg f = some fp) := by
    intro f fp kept hn
    constructor
    · intro hk
      exact of_decide_eq_true (Bool.and_eq_true_iff.mp hk).2
    · intro hfp
      by_contra hk
      exact hn (by simpa using hk) hfp
  cases th with
  | statted path f fp kept =>
    cases fp with
    | none => trivial
    | some fp =>
      refine hkept fun hk => ?_
      simp only [Thread.age, hk] at hn
      exact hn
  | loaded path f fp bytes kept =>
    cases fp with
    | none => trivial
    | some fp =>
      refine ⟨hkept fun hk => ?_, fun hk => h.2 (Bool.and_eq_true_iff.mp hk).1⟩
      simp only [Thread.age, hk] at hn
      exact hn
  | probing path fp c =>
    cases fp with
    | none => trivial
    | some fp => exact h
  | hit e c => exact h
  | inserting path fp bytes => exact h
  | numbered path fp bytes seq => exact h
  | idle => trivial
  | opened path f => trivial
  | clearing pre i => trivial

/-- **Each step** keeps the contents right. -/
theorem coherent_step {l : Label} (h : Coherent cfg contentsOf s)
    (hs : Step cfg (Calm cfg contentsOf) s l s') : Coherent cfg contentsOf s' := by
  have hdrop : ∀ path, Coherent cfg contentsOf (s.setShard (shardIndex path)
      (dropEntry (s.shards (shardIndex path)) path)) := fun path =>
    h.setShard fun path' e he => .inl (lookup_dropEntry he)
  cases hs with
  | world ha => exact ⟨ha.1, h.entries, fun t => threadOk_age (h.threads t) (ha.2 t)⟩
  | probeStat path =>
    refine h.setThread ?_
    split
    · trivial
    · rename_i f hf
      cases hfp : s.world.fingerprint cfg f with
      | none => trivial
      | some fp => exact h.world f fp hfp
  | probeDrop ht => exact (hdrop _).setThread trivial
  | probeMiss ht hl => exact h.setThread trivial
  | @probeHit t path fp c e ht hl hfp =>
    have hc : c = contentsOf fp := by
      have hk := h.threads t
      rwa [ht] at hk
    refine h.setThread ?_
    show e.bytes = c
    rw [h.entries _ _ _ hl, hfp, hc]
  | probeStale ht hl hfp => exact (hdrop _).setThread trivial
  | returned ht => exact h.setThread trivial
  | openFile hi hf => exact h.setThread trivial
  | @stat t path f ht =>
    refine h.setThread ?_
    cases hfp : s.world.fingerprint cfg f with
    | none => trivial
    | some fp => exact iff_of_true rfl hfp
  | @load t path f fp kept ht =>
    have hk := h.threads t
    rw [ht] at hk
    refine h.setThread ?_
    cases fp with
    | none => trivial
    | some fp => exact ⟨hk, fun hkept => h.world f fp (hk.mp hkept)⟩
  | @stable t path f fp bytes kept ht hfp =>
    have hk := h.threads t
    rw [ht] at hk
    exact h.setThread (hk.2 (hk.1.mpr hfp))
  | giveUp ht => exact h.setThread trivial
  | @number t path fp bytes ht hb =>
    have hk := h.threads t
    rw [ht] at hk
    exact Coherent.setThread (s := { s with nextSeq := s.nextSeq + 1 })
      ⟨h.world, h.entries, h.threads⟩ hk
  | refuse ht hb => exact h.setThread trivial
  | @insert t path fp bytes seq ht =>
    have hk := h.threads t
    rw [ht] at hk
    refine Coherent.setThread (h.setShard fun path' e he => ?_) trivial
    exact (lookup_insertEntry he).imp id fun heq => by rw [heq]; exact hk
  | invalidate path hi he => exact hdrop path
  | startPrefix pre hi he hp => exact h.setThread trivial
  | clearShard ht hi =>
    exact Coherent.setThread (h.setShard fun path' e he => .inl (lookup_dropPrefix he)) trivial
  | endPrefix ht hi => exact h.setThread trivial

/-- **In every run** in which no fingerprint comes back, the contents are right. -/
theorem coherent_of_reachable
    (h : Reachable cfg (Determined cfg contentsOf) (Calm cfg contentsOf) s) :
    Coherent cfg contentsOf s := by
  induction h with
  | start hw => exact ⟨hw, fun _ _ _ he => absurd he nofun, fun _ => trivial⟩
  | step _ hs ih => exact coherent_step ih hs

end Coherence

/-- **The cache is bounded**, whatever happens, **and coherent** if contents go with fingerprints
and no file takes a fingerprint again while it is read. -/
theorem cache_laws (cfg : Config) (contentsOf : Fingerprint → Bytes) :
    (∀ start allowed s, Reachable cfg start allowed s →
      (∀ i, (s.shards i).bytes = total (s.shards i).map ∧
        ∀ path e, (s.shards i).map.lookup path = some e →
          ⟨path, e.seq⟩ ∈ (s.shards i).order ∧
            ((s.shards i).order.map (·.seq)).count e.seq = 1) ∧
      ∀ path s', Step cfg allowed s (.insert path) s' →
        Bounded cfg (s'.shards (shardIndex path))) ∧
      ∀ s, Reachable cfg (Determined cfg contentsOf) (Calm cfg contentsOf) s →
        ∀ t e c, s.threads t = .hit e c → e.bytes = c := by
  refine ⟨fun start allowed s h => ?_, fun s h t e c ht => ?_⟩
  · have ho := orderly_of_reachable h
    refine ⟨fun i => ⟨(ho.sound i).counter, fun path e he => ?_⟩, fun path s' hs => ?_⟩
    · have hslot := (ho.sound i).slot path e he
      exact ⟨hslot, List.count_eq_one_of_mem (ho.sound i).nodup (List.mem_map_of_mem hslot)⟩
    · generalize hl : Label.insert path = l at hs
      cases hs with
      | @insert t path fp bytes seq ht =>
        obtain rfl := Label.insert.inj hl
        have hb := (@sound_insertEntry cfg _ path ⟨fp, seq, bytes⟩ (ho.sound _)
          (ho.fresh ht (shardIndex path))).2
        rw [State.setThread, State.setShard]
        dsimp only
        rw [Function.update_self]
        exact hb
      | _ => exact absurd hl nofun
  · have hk := (coherent_of_reachable h).threads t
    rwa [ht] at hk

/-- A world of one file, of one byte. -/
def oneFile (mtime : ℤ) (b : UInt8) : World where
  metadata _ := ⟨true, ⟨1, mtime, 0, 0, 0, 0, 0⟩⟩
  contents _ := [b]
  resolve _ := some 0

/-- The configuration that a process has by default. -/
def Config.standard : Config := ⟨true, 3145728, 8388608⟩

theorem determined_oneFile (mtime : ℤ) (b : UInt8) {contentsOf : Fingerprint → Bytes}
    (h : contentsOf ⟨1, mtime, 0, 0, 0, 0, 0⟩ = [b]) :
    Determined Config.standard contentsOf (oneFile mtime b) := by
  intro f fp hfp
  obtain rfl := Option.some.inj (show some _ = some fp from hfp)
  exact h.symm

/-- The contents that go with the fingerprints of two versions of a file. -/
def twoVersions (fp : Fingerprint) : Bytes := if fp.mtimeSec = 0 then [1] else [2]

/-- A file is cached, changes, is cached again and found. -/
theorem hit_after_change : ∃ s e,
    Reachable Config.standard (Determined Config.standard twoVersions)
      (Calm Config.standard twoVersions) s ∧
    s.threads 0 = .hit e [2] ∧ e.bytes = [2] := by
  have hA : Determined Config.standard twoVersions (oneFile 0 1) := determined_oneFile 0 1 rfl
  have hB : Determined Config.standard twoVersions (oneFile 1 2) := determined_oneFile 1 2 rfl
  have h0 : Reachable Config.standard (Determined Config.standard twoVersions)
      (Calm Config.standard twoVersions) (State.start (oneFile 0 1)) := .start hA
  have h2 := (h0.step (@Step.openFile _ _ _ 0 [] 0 rfl rfl)).step (.stat (t := 0) rfl)
  have h4 := (h2.step (.load (t := 0) rfl)).step (.stable (t := 0) rfl rfl)
  have h6 := (h4.step (.number (t := 0) rfl rfl)).step (.insert (t := 0) rfl)
  -- The change, while no thread reads.
  have h7 := h6.step (.world ⟨hB, fun t => by cases t <;> trivial⟩)
  have h9 := (h7.step (@Step.openFile _ _ _ 0 [] 0 rfl rfl)).step (.stat (t := 0) rfl)
  have h11 := (h9.step (.load (t := 0) rfl)).step (.stable (t := 0) rfl rfl)
  have h13 := (h11.step (.number (t := 0) rfl rfl)).step (.insert (t := 0) rfl)
  let e₁ : CachedFile := ⟨⟨1, 0, 0, 0, 0, 0, 0⟩, 1, [1]⟩
  let e₂ : CachedFile := ⟨⟨1, 1, 0, 0, 0, 0, 0⟩, 2, [2]⟩
  let shards := Function.update (fun _ => ({} : Shard)) (shardIndex [])
    (insertEntry Config.standard {} [] e₁)
  have hl : (Function.update shards (shardIndex [])
      (insertEntry Config.standard (shards (shardIndex [])) [] e₂) (shardIndex [])).map.lookup [] =
        some e₂ := by
    rw [Function.update_self, show shards (shardIndex []) = _ from Function.update_self ..]
    rfl
  have h15 := (h13.step (.probeStat (t := 0) [] rfl rfl)).step (.probeHit (t := 0) rfl hl rfl)
  exact ⟨_, e₂, h15, rfl, (cache_laws Config.standard twoVersions).2 _ h15 0 _ _ rfl⟩

/-- A file that changes and is back while it is read: the entry has the contents of in between. -/
theorem hit_of_other_contents :
    ¬ ∀ (cfg : Config) (contentsOf : Fingerprint → Bytes) (s : State),
      Reachable cfg (Determined cfg contentsOf) (fun w _ => Determined cfg contentsOf w) s →
        ∀ t e c, s.threads t = .hit e c → e.bytes = c := by
  intro h
  have hA : Determined Config.standard twoVersions (oneFile 0 1) := determined_oneFile 0 1 rfl
  have hB : Determined Config.standard twoVersions (oneFile 1 2) := determined_oneFile 1 2 rfl
  have h0 : Reachable Config.standard (Determined Config.standard twoVersions)
      (fun w _ => Determined Config.standard twoVersions w) (State.start (oneFile 0 1)) := .start hA
  -- The metadata, the change, the read, the way back, the metadata.
  have h2 := (h0.step (@Step.openFile _ _ _ 0 [] 0 rfl rfl)).step (.stat (t := 0) rfl)
  have h4 := (h2.step (.world hB)).step (.load (t := 0) rfl)
  have h6 := (h4.step (.world hA)).step (.stable (t := 0) rfl rfl)
  have h8 := (h6.step (.number (t := 0) rfl rfl)).step (.insert (t := 0) rfl)
  let e : CachedFile := ⟨⟨1, 0, 0, 0, 0, 0, 0⟩, 1, [2]⟩
  have hl : (Function.update (fun _ => ({} : Shard)) (shardIndex [])
      (insertEntry Config.standard {} [] e) (shardIndex [])).map.lookup [] = some e := by
    rw [Function.update_self]
    rfl
  have h10 := (h8.step (.probeStat (t := 0) [] rfl rfl)).step (.probeHit (t := 0) rfl hl rfl)
  exact absurd (h _ _ _ h10 0 _ _ rfl) (by decide)

end ZzLang.Fs.Cache
