import RelayMiner.Smst.Complete
/-!
# What a resume gives back never shrinks

The root a resume imports is claimed_root, else live_root, else the empty tree's.
As long as roots are stored from the resident tree and the session's records are
not purged, every leaf it has it keeps: the resident tree was resumed from it, or
has grown from the tree that stored it.
-/
open RelayMiner.Lib RelayMiner.Session Function

namespace RelayMiner.Smst

variable {K V L : Type} {T : Trie K V L} {s : Miner K V} {g : Nat} {d' d : Records K V} {t t' : Tree K V}

def resumeRoot (T : Trie K V L) (d : Records K V) : Bytes := (d.claimedRoot.or d.liveRoot).getD T.empty

def Within (T : Trie K V L) (r r' : Bytes) : Prop := ∀ l, T.contains r l = true → T.contains r' l = true

theorem Within.refl (r : Bytes) : Within T r r := fun _ h => h

theorem Within.trans {r r' r'' : Bytes} (h : Within T r r') (h' : Within T r' r'') : Within T r r'' :=
  fun l hl => h' l (h l hl)

theorem within_insert (r : Bytes) (l : L) : Within T r (T.insert r l) :=
  fun l' h => (T.contains_insert r l l').2 (.inr h)

/-- The condition on a run besides `ByResident`: the third eviction in a row does not come. -/
def NoPurge (s : Miner K V) : Act K L → Prop
  | .evict _ => s.evictionCount + 1 < persistentCorruptionThreshold
  | _ => True

variable [DecidableEq K]

structure Grown (T : Trie K V L) (s : Miner K V) : Prop where
  complete : Complete T s
  resident : ∀ g t, s.resident = some g → s.trees g = some t → Within T (resumeRoot T s.disk) t.root
  young : ∀ g t, s.trees g = some t → g ≤ s.treeGen

structure Keeps (T : Trie K V L) (s s' : Miner K V) : Prop where
  stored : Within T (resumeRoot T s.disk) (resumeRoot T s'.disk)
  trees : ∀ g t, s.trees g = some t → ∃ t', s'.trees g = some t' ∧ Within T t.root t'.root

omit [DecidableEq K] in
theorem Keeps.refl (s : Miner K V) : Keeps T s s := ⟨.refl _, fun _ t h => ⟨t, h, .refl _⟩⟩

omit [DecidableEq K] in
theorem keeps_update {n : Nat} (hg : s.trees g = some t) (ht : Within T t.root t'.root)
    (hd : Within T (resumeRoot T s.disk) (resumeRoot T d')) :
    Keeps T s { s with trees := update s.trees g (some t'), disk := d', evictionCount := n } := by
  refine ⟨hd, fun g0 t0 h0 => ?_⟩
  by_cases hgg : g0 = g
  · subst hgg
    cases hg.symm.trans h0
    exact ⟨t', by simp, ht⟩
  · exact ⟨t0, by simpa [update_of_ne hgg] using h0, .refl _⟩

theorem Grown.update (h : Grown T s) {n : Nat} (hg : s.trees g = some t)
    (hc : Complete T { s with trees := update s.trees g (some t'), disk := d', evictionCount := n })
    (hself : s.resident = some g → Within T (resumeRoot T d') t'.root)
    (hother : s.resident ≠ some g → resumeRoot T d' = resumeRoot T s.disk) :
    Grown T { s with trees := update s.trees g (some t'), disk := d', evictionCount := n } := by
  refine ⟨hc, fun g0 t0 hr h0 => ?_, fun g0 t0 h0 => ?_⟩
  · by_cases hgg : g0 = g
    · subst hgg
      obtain rfl : t' = t0 := by simpa using h0
      exact hself hr
    · have hne : s.resident ≠ some g := fun hr' => hgg (Option.some.inj (hr.symm.trans hr'))
      rw [hother hne]
      exact h.resident g0 t0 hr (by simpa [update_of_ne hgg] using h0)
  by_cases hgg : g0 = g
  · exact h.young g0 t (hgg ▸ hg)
  · exact h.young g0 t0 (by simpa [update_of_ne hgg] using h0)

omit [DecidableEq K] in
theorem resumeRoot_congr (hl : d'.liveRoot = d.liveRoot) (hc : d'.claimedRoot = d.claimedRoot) :
    resumeRoot T d' = resumeRoot T d := by
  simp [resumeRoot, hl, hc]

omit [DecidableEq K] in
theorem Whole.holds_resumeRoot (h : Whole T d) : Holds T.content d.nodes (T.nodes (resumeRoot T d)) := by
  unfold resumeRoot
  cases hc : d.claimedRoot with
  | some r => exact (h.claimed r hc).2
  | none =>
    cases hl : d.liveRoot with
    | some r => exact (h.live r hl).2
    | none => simp [T.nodes_empty, Holds]

omit [DecidableEq K] in
/-- What a resume imports with every read answered. -/
theorem resume_root (h : Whole T d) {e : ResumeEnv}
    (he : e.claimedRead = true ∧ e.claimedImport = true ∧ e.liveRead = true ∧ e.liveImport = true) :
    (resumeTreeFromRedis e d).2 = d ∧
      ((resumeTreeFromRedis e d).1.getD { root := T.empty, committed := T.empty }).root = resumeRoot T d := by
  rcases resume_whole h he with ⟨r, hc, hr⟩ | ⟨r, hc, hl, hr⟩ | ⟨hc, hl, hr⟩
  · simp [hr, resumeRoot, hc]
  · simp [hr, resumeRoot, hc, hl]
  · simp [hr, resumeRoot, hc, hl]

section
variable (h : Grown T s)
include h

theorem grown_getOrCreate {e : ResumeEnv}
    (he : e.claimedRead = true ∧ e.claimedImport = true ∧ e.liveRead = true ∧ e.liveImport = true) :
    Grown T (getOrCreateTree T e s) ∧ Keeps T s (getOrCreateTree T e s) := by
  have hc := complete_getOrCreate h.complete he
  unfold getOrCreateTree at hc ⊢
  cases hres : s.resident with
  | some g => exact ⟨h, .refl s⟩
  | none =>
    obtain ⟨hdisk, hroot⟩ := resume_root h.complete.whole he
    simp only [hres, hdisk] at hc ⊢
    refine ⟨⟨hc, fun g t hr ht => ?_, fun g t ht => ?_⟩, .refl _, fun g t ht => ?_⟩
    · cases hr
      cases show some _ = some t by simpa [addTree] using ht
      rw [hroot]
      exact .refl _
    · by_cases hg : g = s.treeGen + 1
      · exact hg ▸ Nat.le_refl _
      · have hold : s.trees g = some t := by simpa [addTree, update_of_ne hg] using ht
        exact Nat.le_succ_of_le (h.young g t hold)
    have hg : g ≠ s.treeGen + 1 := by
      have := h.young g t ht
      omega
    exact ⟨t, by simpa [addTree, update_of_ne hg] using ht, .refl _⟩

theorem grown_setTree (hg : s.trees g = some t) (ht : Within T t.root t'.root)
    (hc : Complete T (setTree s g t')) : Grown T (setTree s g t') ∧ Keeps T s (setTree s g t') :=
  ⟨h.update (n := s.evictionCount) hg hc (fun hr => (h.resident g t hr hg).trans ht) fun _ => rfl,
    keeps_update (n := s.evictionCount) hg ht (.refl _)⟩

theorem grown_commit (hg : s.trees g = some t) {p : Purpose} {f : CommitFault K}
    (hc : Complete T (commitTree T s g t p f)) :
    Grown T (commitTree T s g t p f) ∧ Keeps T s (commitTree T s g t p f) := by
  obtain ⟨t', hash, n, he, hroot, -⟩ := commitTree_frame T s g t p f
  rw [he] at hc ⊢
  have hw : Within T t.root t'.root := hroot ▸ .refl _
  exact ⟨h.update hg hc (fun hr => (h.resident g t hr hg).trans hw) fun _ => rfl, keeps_update hg hw (.refl _)⟩

/-- The resident tree's root covers the stored one, so storing it loses no leaf. -/
theorem grown_storeRoot (hg : s.trees g = some t) (hr : s.resident = some g) {put : PutFault K}
    {f : Fault} (hc : Complete T (storeRoot s g t put f)) :
    Grown T (storeRoot s g t put f) ∧ Keeps T s (storeRoot s g t put f) := by
  have hcov := h.resident g t hr hg
  have hclaim : ∀ r, s.disk.claimedRoot = some r → t.root = r := by
    obtain ⟨t0, ht0, hb⟩ := h.complete.backed g hr
    cases hg.symm.trans ht0
    exact fun r hr => (h.complete.tidy g t hg).atClaim r (hb.claimed r hr)
  have hphase : t.phase = .claimedRoot → t.claimedRoot = some t.root := by
    intro hp
    obtain ⟨t0, ht0, hb⟩ := h.complete.backed g hr
    cases hg.symm.trans ht0
    obtain ⟨r, hr⟩ := Option.isSome_iff_exists.1 (hb.claimPhase hp).1
    rw [hr, (h.complete.tidy g t hg).atClaim r hr]
  obtain ⟨t', d', he, ⟨hroot, -, -, -⟩, hd⟩ := storeRoot_frame hg put f
  rw [he] at hc ⊢
  have hw : Within T t.root t'.root := hroot ▸ .refl _
  -- The root a resume finds is the old one or the tree's.
  have hnew : resumeRoot T d' = resumeRoot T s.disk ∨ resumeRoot T d' = t.root := by
    rcases hd with ⟨hl, hcl⟩ | ⟨hl, hcl⟩ | ⟨hp, hl, hcl⟩
    · exact .inl (resumeRoot_congr hl hcl)
    · cases hs : s.disk.claimedRoot with
      | none => exact .inr (by simp [resumeRoot, hl, hcl, hs])
      | some r => exact .inr (by simp [resumeRoot, hcl, hs, hclaim r hs])
    · exact .inr (by simp [resumeRoot, hcl, hphase hp])
  have hstored : Within T (resumeRoot T s.disk) (resumeRoot T d') := by
    rcases hnew with hn | hn <;> rw [hn]
    · exact .refl _
    · exact hcov
  have hself : Within T (resumeRoot T d') t'.root := by
    rcases hnew with hn | hn <;> rw [hn]
    · exact hcov.trans hw
    · exact hw
  exact ⟨h.update (n := s.evictionCount) hg hc (fun _ => hself) (fun hn => absurd hr hn),
    keeps_update (n := s.evictionCount) hg hw hstored⟩

/-- One action of the manager, short of a crash and of a purge, loses no leaf of the stored root or of a tree. -/
theorem grown_step {a : Act K L} (ha : ByResident s a) (hp : NoPurge s a) (hcrash : a ≠ .crash) :
    Grown T (step T s a) ∧ Keeps T s (step T s a) := by
  have hc := complete_step h.complete ha
  rcases step_cases T s a with
    he | ⟨e, rfl, he⟩ | ⟨g, l, t, rfl, hg, -, he⟩ | ⟨g, t, rfl, hg, -, he⟩ | ⟨g, p, f, t, rfl, hg, -, he⟩ |
    ⟨g, put, f, t, rfl, hg, he⟩ | ⟨f, rfl, he⟩ | ⟨rfl, he⟩ <;> rw [he] at hc ⊢
  · exact ⟨h, .refl s⟩
  · exact grown_getOrCreate h ha
  · refine grown_setTree h hg ?_ hc
    unfold updateTree
    split
    · exact .refl _
    · exact within_insert _ l
  · refine grown_setTree h hg ?_ hc
    unfold sealTree
    split <;> exact .refl _
  · exact grown_commit h hg hc
  · exact grown_storeRoot h hg ha hc
  · have hev : evict s f = { s with resident := none, evictionCount := s.evictionCount + 1 } := if_pos hp
    rw [hev] at hc ⊢
    exact ⟨⟨hc, nofun, h.young⟩, .refl _, fun g t hg => ⟨t, hg, .refl _⟩⟩
  · exact absurd rfl hcrash
end

end RelayMiner.Smst
