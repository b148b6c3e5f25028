import RelayMiner.Smst.Manager
/-!
# What a resume owes the store

`GetOrCreateTree` never fails: a read it gets no answer to is a root that is not
there. The tree it hands out is the stored one exactly when the read that matters
was answered and its import did not panic.
-/
open RelayMiner.Lib RelayMiner.Session

namespace RelayMiner.Smst

variable {K V L : Type} {r : Bytes} {d : Records K V} {e : ResumeEnv} {t : Tree K V}

/-- A stored value that is a root: one of another length is a corrupt key, which the resume discards. -/
def storedRoot (v : Option Bytes) : Option Bytes := v.filter isValidSMSTRoot

/-- The tree the store calls for: sealed at claimed_root, at live_root if there is no claimed_root, or empty. -/
def Faithful (T : Trie K V L) (d : Records K V) (t : Tree K V) : Prop :=
  match storedRoot d.claimedRoot, storedRoot d.liveRoot with
  | some r, _ => t.root = r ∧ t.claimedRoot = some r
  | none, some r => t.root = r ∧ t.claimedRoot = none
  | none, none => t.root = T.empty ∧ t.claimedRoot = none

/-- The read the tree depends on is answered, and what it returned can be imported. -/
def Answered (T : Trie K V L) (e : ResumeEnv) (d : Records K V) : Prop :=
  match storedRoot d.claimedRoot, storedRoot d.liveRoot with
  | some _, _ => e.claimedRead = true ∧ e.claimedImport = true
  | none, some r => (e.liveRead = true ∧ e.liveImport = true) ∨ r = T.empty
  | none, none => True

theorem length_pos_of_valid (h : isValidSMSTRoot r = true) : r ≠ [] := by
  rintro rfl
  cases h

theorem storedRoot_eq_some {v : Option Bytes} : storedRoot v = some r ↔ v = some r ∧ isValidSMSTRoot r = true := by
  simp [storedRoot, Option.filter_eq_some_iff]

/-- What a read returns: nothing, a value that is no root, or the stored root. -/
theorem readRoot_cases (answered : Bool) (v : Option Bytes) :
    (readRoot answered v = [] ∧ (answered = true → storedRoot v = none)) ∨
    (readRoot answered v ≠ [] ∧ isValidSMSTRoot (readRoot answered v) = false ∧ answered = true ∧ storedRoot v = none) ∨
    (∃ r, readRoot answered v = r ∧ answered = true ∧ storedRoot v = some r) := by
  unfold readRoot
  cases answered with
  | false => exact .inl ⟨rfl, by simp⟩
  | true =>
    cases v with
    | none => exact .inl ⟨rfl, fun _ => rfl⟩
    | some r =>
      by_cases hv : isValidSMSTRoot r = true
      · exact .inr (.inr ⟨r, rfl, rfl, storedRoot_eq_some.2 ⟨rfl, hv⟩⟩)
      have hnone : storedRoot (some r) = none := by simp [storedRoot, hv]
      by_cases he : r = []
      · exact .inl ⟨by simp [he], fun _ => hnone⟩
      · exact .inr (.inl ⟨by simpa using he, by simpa using hv, rfl, hnone⟩)

/-- The live half: the stored live_root, or nothing. -/
theorem resumeLive_of_none (h : storedRoot d.liveRoot = none) : (resumeLive e d).1 = none := by
  unfold resumeLive
  rcases readRoot_cases e.liveRead d.liveRoot with ⟨hr, -⟩ | ⟨hr, hv, -⟩ | ⟨r, -, -, hs⟩
  · simp only [hr, if_true]
  · simp only [if_neg hr, hv, Bool.not_false, if_true]
  · rw [h] at hs
    cases hs

theorem resumeLive_of_some (h : storedRoot d.liveRoot = some r) :
    (resumeLive e d).1 =
      if e.liveRead = true ∧ e.liveImport = true then some { root := r, committed := r, liveRoot := some r }
      else none := by
  obtain ⟨hl, hv⟩ := storedRoot_eq_some.1 h
  unfold resumeLive
  cases hread : e.liveRead with
  | false => simp [readRoot]
  | true => cases e.liveImport <;> simp [readRoot, hl, hv, length_pos_of_valid hv]

theorem resumeTree_of_claimed (h : storedRoot d.claimedRoot = some r) (ha : e.claimedRead = true)
    (hi : e.claimedImport = true) :
    (resumeTreeFromRedis e d).1 = some { root := r, committed := r, claimedRoot := some r } := by
  obtain ⟨hc, hv⟩ := storedRoot_eq_some.1 h
  simp [resumeTreeFromRedis, readRoot, ha, hi, hc, hv, length_pos_of_valid hv]

theorem resumeTree_of_no_claimed (h : storedRoot d.claimedRoot = none) :
    ∃ d' : Records K V, d'.liveRoot = d.liveRoot ∧ (resumeTreeFromRedis e d).1 = (resumeLive e d').1 := by
  unfold resumeTreeFromRedis
  rcases readRoot_cases e.claimedRead d.claimedRoot with ⟨hr, -⟩ | ⟨hr, hv, -⟩ | ⟨r, -, -, hs⟩
  · exact ⟨d, rfl, by simp only [hr, if_true]⟩
  · refine ⟨delClaimedRoot e.delClaimed d, ?_, by simp only [if_neg hr, hv, Bool.not_false, if_true]⟩
    unfold delClaimedRoot
    split <;> rfl
  · rw [h] at hs
    cases hs

theorem resumeLive_claimedRoot (ht : (resumeLive e d).1 = some t) : t.claimedRoot = none := by
  unfold resumeLive at ht
  dsimp only at ht
  split_ifs at ht
  cases ht
  rfl

/-- A claimed_root that is not read, or not imported, is never the tree's. -/
theorem claimedRoot_of_unanswered (h : ¬ (e.claimedRead = true ∧ e.claimedImport = true))
    (ht : (resumeTreeFromRedis e d).1 = some t) : t.claimedRoot = none := by
  unfold resumeTreeFromRedis at ht
  dsimp only at ht
  split_ifs at ht with hnil hv hi
  · exact resumeLive_claimedRoot ht
  · exact resumeLive_claimedRoot ht
  have hread : e.claimedRead = true := by
    by_contra hr
    exact hnil (by simp [readRoot, hr])
  exact absurd ⟨hread, hi⟩ h

def residentTree (s : Miner K V) : Option (Tree K V) := s.resident.bind s.trees

theorem residentTree_getOrCreate (T : Trie K V L) (e : ResumeEnv) {s : Miner K V} (h : s.resident = none) :
    residentTree (getOrCreateTree T e s) =
      some ((resumeTreeFromRedis e s.disk).1.getD { root := T.empty, committed := T.empty }) := by
  simp [residentTree, getOrCreateTree, h, addTree]

theorem updateTree_of_claimed (T : Trie K V L) (h : t.claimedRoot = some r) (l : L) : updateTree T t l = t := by
  simp [updateTree, h]

/-- `GetOrCreateTree` hands out the resident tree, or the one the store calls for: in that case exactly if the
read it depends on was answered and its import did not panic. A tree at a claimed_root takes no relay. -/
theorem resume_faithful_iff (T : Trie K V L) (e : ResumeEnv) (s : Miner K V) :
    (s.resident ≠ none → getOrCreateTree T e s = s) ∧
    (s.resident = none →
      ((∃ t, residentTree (getOrCreateTree T e s) = some t ∧ Faithful T s.disk t ∧
        ((storedRoot s.disk.claimedRoot).isSome → ∀ l, updateTree T t l = t)) ↔ Answered T e s.disk)) := by
  refine ⟨fun h => ?_, fun h => ?_⟩
  · obtain ⟨g, hg⟩ := Option.ne_none_iff_exists'.1 h
    simp [getOrCreateTree, hg]
  rw [residentTree_getOrCreate T e h]
  simp only [Option.some.injEq, exists_eq_left']
  unfold Faithful Answered
  cases hc : storedRoot s.disk.claimedRoot with
  | some r =>
    refine ⟨fun ⟨⟨_, hcl⟩, _⟩ => ?_, fun ⟨ha, hi⟩ => ?_⟩
    · by_contra hna
      cases hres : (resumeTreeFromRedis e s.disk).1 with
      | none => simp [hres] at hcl
      | some t => simp [hres, claimedRoot_of_unanswered hna hres] at hcl
    · rw [resumeTree_of_claimed hc ha hi]
      exact ⟨⟨rfl, rfl⟩, fun _ => updateTree_of_claimed T rfl⟩
  | none =>
    obtain ⟨d', hd', hres⟩ := resumeTree_of_no_claimed (e := e) hc
    rw [hres]
    cases hl : storedRoot s.disk.liveRoot with
    | none =>
      rw [← hd'] at hl
      simp [resumeLive_of_none hl]
    | some r =>
      rw [← hd'] at hl
      rw [resumeLive_of_some hl]
      by_cases ha : e.liveRead = true ∧ e.liveImport = true
      · simp [ha]
      rw [if_neg ha]
      constructor
      · rintro ⟨⟨hroot, -⟩, -⟩
        exact .inr hroot.symm
      rintro (hx | rfl)
      · exact absurd hx ha
      · exact ⟨⟨rfl, rfl⟩, by simp⟩

/-! ## A session with one relay -/

def restarted (sealed : Bool) : Miner Bytes Bytes :=
  run (step pairTrie) {} <|
    [.getOrCreate {}, .update 1 true, .commit 1 .checkpoint (.written [] .ok), .storeRoot 1 .ok .ok] ++
      (if sealed then [.sealTree 1, .commit 1 .flushTree (.written [] .ok), .storeRoot 1 .ok .ok] else []) ++ [.crash]

/-- A session that was sealed: its tree does not depend on the read of live_root, which is not answered. -/
theorem resume_faithful_restarted :
    ∃ t, residentTree (getOrCreateTree pairTrie { liveRead := false } (restarted true)) = some t ∧
      Faithful pairTrie (restarted true).disk t ∧
      ((storedRoot (restarted true).disk.claimedRoot).isSome → ∀ l, updateTree pairTrie t l = t) :=
  ((resume_faithful_iff pairTrie { liveRead := false } (restarted true)).2 rfl).2 ⟨rfl, rfl⟩

/-- One unanswered read of live_root, and the next checkpoint replaces the stored relay by an empty tree's;
one of claimed_root, and the sealed session takes relays again. -/
theorem resume_loses_root :
    (residentTree (getOrCreateTree pairTrie { liveRead := false } (restarted false))).map (·.root) =
        some pairTrie.empty ∧
      ((run (step pairTrie) (restarted false)
        [.getOrCreate { liveRead := false }, .commit 1 .checkpoint (.written [] .ok),
          .storeRoot 1 .ok .ok]).disk.liveRoot.map fun r => pairTrie.contains r true) = some false ∧
      ((residentTree (run (step pairTrie) (restarted true)
        [.getOrCreate { claimedRead := false }, .update 1 false])).map fun t => pairTrie.contains t.root false) =
          some true := by
  decide

end RelayMiner.Smst
