import Mathlib.Data.List.Basic
/-!
# Content-addressed maps behind a write buffer

A map from keys to values in which a key fixes its value (`content`), as digests
do, and a buffer of writes that have not reached it. Writes may land in part;
whatever lands is genuine, so a set of keys the map holds stays held until a key
of it is removed.
-/

namespace RelayMiner.Lib

variable {K V : Type} [DecidableEq K]

def putKey (k : K) (v : V) (buf : List (K × V)) : List (K × V) := (k, v) :: buf.filter (·.1 ≠ k)

def dropKey (k : K) (buf : List (K × V)) : List (K × V) := buf.filter (·.1 ≠ k)

def readThrough (buf : List (K × V)) (m : K → Option V) (k : K) : Option V := (buf.lookup k).or (m k)

/-- The buffered writes to the keys `landed` picks reach the map. -/
def land (landed : K → Bool) (buf : List (K × V)) (m : K → Option V) (k : K) : Option V :=
  if landed k then readThrough buf m k else m k

def remove (ks : List K) (m : K → Option V) (k : K) : Option V := if k ∈ ks then none else m k

section

variable {K : Type} [DecidableEq K] [BEq K] [LawfulBEq K]

omit [DecidableEq K] in
/-- What a removal of keys leaves. -/
theorem lookup_filter_key (keep : K → Bool) (buf : List (K × V)) (k : K) :
    (buf.filter fun e => keep e.1).lookup k = if keep k then buf.lookup k else none := by
  induction buf with
  | nil => simp
  | cons e buf ih =>
    obtain ⟨a, v⟩ := e
    rw [List.filter_cons, List.lookup_cons]
    cases hk : k == a with
    | true =>
      obtain rfl := beq_iff_eq.1 hk
      cases hkeep : keep k <;> simp [ih, hkeep]
    | false => cases hkeep : keep a <;> simp [List.lookup_cons, ih, hk]

@[simp] theorem lookup_dropKey (k k' : K) (buf : List (K × V)) :
    (dropKey k buf).lookup k' = if k' = k then none else buf.lookup k' := by
  have h := lookup_filter_key (fun a => decide (a ≠ k)) buf k'
  rw [show dropKey k buf = buf.filter fun e => decide (e.1 ≠ k) from rfl, h]
  by_cases hk : k' = k <;> simp [hk]

@[simp] theorem lookup_putKey (k k' : K) (v : V) (buf : List (K × V)) :
    (putKey k v buf).lookup k' = if k' = k then some v else buf.lookup k' := by
  rw [show putKey k v buf = (k, v) :: dropKey k buf from rfl, List.lookup_cons, lookup_dropKey]
  by_cases hk : k' = k
  · simp [hk]
  · simp [hk, beq_eq_false_iff_ne.2 hk]

end

/-! ## Genuine maps -/

section

variable (content : K → V)

/-- Every value present is the content of its key. -/
def Genuine (m : K → Option V) : Prop := ∀ k v, m k = some v → v = content k

def Holds (m : K → Option V) (ks : List K) : Prop := ∀ k ∈ ks, m k = some (content k)

end

variable {content : K → V} {buf : List (K × V)} {m : K → Option V} {ks : List K}

theorem Genuine.readThrough (hb : Genuine content (buf.lookup ·)) (hm : Genuine content m) :
    Genuine content (readThrough buf m) := by
  intro k v h
  unfold Lib.readThrough at h
  cases hl : buf.lookup k with
  | none => exact hm k v (by simpa [hl] using h)
  | some w =>
    obtain rfl : w = v := by simpa [hl] using h
    exact hb k w hl

theorem Genuine.land (hb : Genuine content (buf.lookup ·)) (hm : Genuine content m) (landed : K → Bool) :
    Genuine content (land landed buf m) := by
  intro k v h
  unfold Lib.land at h
  split at h
  · exact hb.readThrough hm k v h
  · exact hm k v h

theorem Genuine.remove (hm : Genuine content m) (ks : List K) : Genuine content (remove ks m) := by
  intro k v h
  unfold Lib.remove at h
  split at h
  · cases h
  · exact hm k v h

section
variable (hb : Genuine content (buf.lookup ·))
include hb

theorem Holds.readThrough (hm : Holds content m ks) :
    Holds content (readThrough buf m) ks := by
  intro k hk
  unfold Lib.readThrough
  cases hl : buf.lookup k with
  | none => simpa [hl] using hm k hk
  | some w => simp [hb k w hl]

/-- What is held stays held when more genuine writes land. -/
theorem Holds.land (hm : Holds content m ks) (landed : K → Bool) :
    Holds content (land landed buf m) ks := by
  intro k hk
  unfold Lib.land
  split
  · exact hm.readThrough hb k hk
  · exact hm k hk

/-- What a reader of another buffer sees stays seen when genuine writes land under it. -/
theorem Holds.readThrough_land {buf' : List (K × V)}
    (h : Holds content (Lib.readThrough buf' m) ks) (landed : K → Bool) :
    Holds content (Lib.readThrough buf' (Lib.land landed buf m)) ks := by
  intro k hk
  have hr := h k hk
  unfold Lib.readThrough at hr ⊢
  cases hl : buf'.lookup k with
  | some w => simpa [hl] using hr
  | none =>
    rw [hl] at hr
    have hone : Holds content m [k] := by simpa [Holds] using hr
    exact hone.land hb landed k List.mem_cons_self
end

/-- Once the whole buffer has landed the map holds what a reader saw. -/
theorem Holds.of_landed (h : Holds content (Lib.readThrough buf m) ks) :
    Holds content (Lib.land (fun _ => true) buf m) ks := by
  intro k hk
  simpa [Lib.land] using h k hk

theorem Holds.remove (hm : Holds content m ks) {gone : List K} (hg : ∀ k ∈ gone, k ∉ ks) :
    Holds content (remove gone m) ks := by
  intro k hk
  rw [Lib.remove, if_neg fun h => hg k h hk]
  exact hm k hk

end RelayMiner.Lib
