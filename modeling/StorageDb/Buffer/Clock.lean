import Mathlib.Tactic
import StorageDb.Buffer.PoolInvariant

namespace StorageDb

namespace BufferPoolManager

variable {p : BufferPoolManager} {held : List Nat} {i : Nat} {f : BufferFrame}

def Unpinned (p : BufferPoolManager) : Prop := ∃ i f, p.Holds i f ∧ f.pinCount = 0

theorem PoolInv.clockStep_spec (h : PoolInv p held) (spare : Bool) :
    (∃ p', clockStep spare p = (.ok (some p.clockHand),p') ∧ PoolInv p' (p.clockHand :: held) ∧
      Keeps p p') ∨
    ∃ p', clockStep spare p = (.ok none,p') ∧ PoolInv p' held ∧ Keeps p p' ∧
      p'.clockHand = (p.clockHand + 1) % p.capacity ∧ p'.freeList = p.freeList ∧
      (∀ j g, p.Holds j g → ∃ g', p'.Holds j g' ∧ g'.pinCount = g.pinCount) ∧
      (spare = false → ∀ g, p.Holds p.clockHand g → g.pinCount ≠ 0) := by
  have hlt : p.clockHand < p.frames.length := h.size ▸ h.hand
  have hget := List.getElem?_eq_getElem hlt
  rw [clockStep]
  simp only [Prog.get_bind_run,hget,Prog.ofOption_some,Prog.pure_bind_run]
  cases hs : p.frames[p.clockHand] with
  | none =>
    rw [hs] at hget
    refine Or.inr ⟨advance p,rfl,h.advanced,keeps_advance p,rfl,rfl,fun j g hg => ⟨g,hg,rfl⟩,?_⟩
    intro _ g hg
    rw [Holds,hget] at hg
    simp at hg
  | some f =>
    rw [hs] at hget
    have hf : p.Holds p.clockHand f := hget
    dsimp only
    split_ifs with hpin href
    · -- the second chance: only the reference bit changes
      obtain ⟨rfl,href⟩ : spare = true ∧ f.refBit = true := by simpa using href
      have hinv := h.reframed hf (g := { f with refBit := false }) rfl (h.clean _ f hf)
      have hlook := h.lookup_setFrame (g := { f with refBit := false }) hf
      have hholds (j : Nat) (g : BufferFrame) :
          (setFrame p.clockHand (some { f with refBit := false }) p).Holds j g ↔
            if j = p.clockHand then g = { f with refBit := false } else p.Holds j g := by
        rw [Holds,getElem?_setFrame hlt]
        split_ifs
        · simp [eq_comm]
        · rfl
      refine Or.inr ⟨_,rfl,hinv.advanced,?_,rfl,rfl,?_,by simp⟩
      · refine ⟨?_,rfl,rfl,?_⟩
        · change (setFrame p.clockHand (some { f with refBit := false }) p).lookup = _
          rw [hlook,← lookup_of_holds (h.slot hf) hf,Function.update_eq_self]
        · intro j g hg
          have hcase := (hholds j g).mp hg
          split_ifs at hcase with hj
          · rw [hj,hcase]
            exact ⟨f,hf,rfl,rfl⟩
          · exact ⟨g,hcase,rfl,rfl⟩
      · intro j g hg
        by_cases hj : j = p.clockHand
        · subst hj
          exact ⟨_,(hholds _ _).mpr (by rw [if_pos rfl]),by rw [← hf.unique hg]⟩
        · exact ⟨g,(hholds _ _).mpr (by rw [if_neg hj]; exact hg),rfl⟩
    · obtain ⟨p',he,hi,hk⟩ := h.evict_spec hf
      refine Or.inl ⟨p',?_,hi,hk⟩
      rw [Prog.bind_ok he]
      rfl
    · refine Or.inr ⟨advance p,rfl,h.advanced,keeps_advance p,rfl,rfl,fun j g hg => ⟨g,hg,rfl⟩,?_⟩
      intro _ g hg
      rwa [← hf.unique hg]

structure Framed (held : List Nat) (p : BufferPoolManager) (Full : Prop)
    (r : Except (Fault Error) Nat) (p' : BufferPoolManager) : Prop where
  keeps : Keeps p p'
  ok : ∀ i, r = .ok i → PoolInv p' (i :: held)
  error : ∀ e, r = .error e → e = .err .bufferPoolFull ∧ PoolInv p' held ∧ Full

section framed

variable {p' : BufferPoolManager} {Full Full' : Prop}

theorem Framed.of_ok (hk : Keeps p p') (h : PoolInv p' (i :: held)) :
    Framed held p Full (.ok i) p' :=
  ⟨hk,fun _ e => by cases e; exact h,fun _ e => by cases e⟩

theorem Framed.of_full (hk : Keeps p p') (h : PoolInv p' held) (hF : Full) :
    Framed held p Full (.error (.err .bufferPoolFull)) p' :=
  ⟨hk,fun _ e => (by cases e),fun _ e => by cases e; exact ⟨rfl,h,hF⟩⟩

theorem Framed.after {r : Except (Fault Error) Nat} {q : BufferPoolManager}
    (h : Framed held p' Full' r q) (hk : Keeps p p') (hF : Full' → Full) : Framed held p Full r q :=
  ⟨hk.trans h.keeps,h.ok,fun e he => ⟨(h.error e he).1,(h.error e he).2.1,hF (h.error e he).2.2⟩⟩

end framed

theorem PoolInv.lastPass_spec (h : PoolInv p held) (n : Nat) :
    Prog.Spec (lastPass n) p (Framed held p
      (∀ k < n, ∀ f, p.Holds ((p.clockHand + k) % p.capacity) f → f.pinCount ≠ 0)) := by
  induction n generalizing p with
  | zero => exact .of_full (.refl p) h (fun k hk => absurd hk (Nat.not_lt_zero k))
  | succ n ih =>
    rcases h.clockStep_spec false with ⟨p',he,hi,hk⟩ | ⟨p',he,hi,hk,hhand,-,hpins,hpinned⟩
    · rw [lastPass,Prog.spec_bind_ok he]
      exact .of_ok hk hi
    · rw [lastPass,Prog.spec_bind_ok he]
      refine (ih hi).after hk (fun hF k hkn f hf => ?_)
      cases k with
      | zero =>
        rw [Nat.add_zero,Nat.mod_eq_of_lt h.hand] at hf
        exact hpinned rfl f hf
      | succ k =>
        obtain ⟨g,hg,hgf⟩ := hpins _ f hf
        rw [← hgf]
        refine hF k (by omega) g ?_
        rw [hhand,hk.capacity,Nat.mod_add_mod,Nat.add_assoc,Nat.add_comm 1 k]
        exact hg

theorem Unpinned.reached (h : PoolInv p held) (hu : Unpinned p) :
    ∃ k < p.capacity, ∃ f, p.Holds ((p.clockHand + k) % p.capacity) f ∧ f.pinCount = 0 := by
  obtain ⟨i,f,hf,hf0⟩ := hu
  have hi : i < p.capacity := h.size ▸ hf.lt
  have hh := h.hand
  refine ⟨(i + p.capacity - p.clockHand) % p.capacity,Nat.mod_lt _ (by omega),f,?_,hf0⟩
  rw [Nat.add_mod_mod,show p.clockHand + (i + p.capacity - p.clockHand) = i + p.capacity by omega,
    Nat.add_mod_right,Nat.mod_eq_of_lt hi]
  exact hf

theorem PoolInv.clockLoop_spec (h : PoolInv p held) {start s fuel : Nat} (hs : start < p.capacity)
    (hhand : p.clockHand = (start + s) % p.capacity) (hfuel : fuel + s = p.capacity)
    (hpos : 0 < fuel) : Prog.Spec (clockLoop start (fuel + 1)) p
    (Framed held p (¬ Unpinned p)) := by
  induction fuel generalizing p s with
  | zero => omega
  | succ fuel ih =>
    rcases h.clockStep_spec true with ⟨p',he,hi,hk⟩ | ⟨p',he,hi,hk,hnext,-,hpins,-⟩
    · rw [clockLoop,Prog.spec_bind_ok he]
      exact .of_ok hk hi
    · have hcap := hk.capacity
      have hu : Unpinned p → Unpinned p' := by
        rintro ⟨j,g,hg,hg0⟩
        obtain ⟨g',hg',hn⟩ := hpins j g hg
        exact ⟨j,g',hg',hn.trans hg0⟩
      have hstep : p'.clockHand = (start + (s + 1)) % p.capacity := by
        rw [hnext,hhand,Nat.mod_add_mod,Nat.add_assoc]
      rw [clockLoop,Prog.spec_bind_ok he]
      simp only [Prog.spec_get_bind]
      split_ifs with hback
      · refine (hi.lastPass_spec p'.capacity).after hk (fun hF hup => ?_)
        obtain ⟨k,hk',f,hf,hf0⟩ := (hu hup).reached hi
        exact hF k hk' f hf hf0
      · -- the loop has not come round, so fuel is left
        have hne : fuel ≠ 0 := by
          rintro rfl
          rw [hstep,show start + (s + 1) = start + p.capacity by omega,Nat.add_mod_right,
            Nat.mod_eq_of_lt hs] at hback
          exact hback rfl
        exact (ih hi (s := s + 1) (by omega) (by rw [hcap]; exact hstep) (by omega)
          (by omega)).after hk (fun hF hup => hF (hu hup))

theorem PoolInv.getFreeFrame_spec (h : PoolInv p held) :
    Prog.Spec getFreeFrame p (Framed held p (p.freeList = [] ∧ ¬ Unpinned p)) := by
  rw [getFreeFrame]
  simp only [Prog.spec_get_bind]
  cases hfl : p.freeList with
  | nil =>
    have hh := h.hand
    exact (h.clockLoop_spec (s := 0) hh (by rw [Nat.add_zero,Nat.mod_eq_of_lt hh]) (by omega)
      (by omega)).after (.refl p) (fun hF => ⟨rfl,hF⟩)
  | cons i rest =>
    change Framed held p _ (.ok i) { p with freeList := rest }
    refine .of_ok ⟨rfl,rfl,rfl,fun _ f hf => ⟨f,hf,rfl,rfl⟩⟩
      ⟨h.disk,h.size,h.hand,h.table,?_,?_,h.known,h.clean⟩
    · intro j
      rw [h.empty j,hfl]
      exact List.perm_middle.mem_iff
    · have hn := h.nodup
      rw [hfl] at hn
      exact List.perm_middle.nodup_iff.mp hn

theorem PoolInv.getFreeFrame_ok (h : PoolInv p held) (hu : p.freeList = [] → Unpinned p) :
    ∃ i p', getFreeFrame p = (.ok i,p') ∧ PoolInv p' (i :: held) ∧ Keeps p p' := by
  rcases hm : getFreeFrame p with ⟨r,p'⟩
  have hfr := h.getFreeFrame_spec.of_eq hm
  cases r with
  | ok i => exact ⟨i,p',rfl,hfr.ok i rfl,hfr.keeps⟩
  | error e =>
    obtain ⟨-,-,hfl,hnu⟩ := hfr.error e rfl
    exact absurd (hu hfl) hnu

end BufferPoolManager

end StorageDb
