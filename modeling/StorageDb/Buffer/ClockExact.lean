import Mathlib.Tactic
import StorageDb.Buffer.Clock

namespace StorageDb

namespace BufferPoolManager
open DiskManager

structure Sized (p : BufferPoolManager) : Prop where
  size : p.frames.length = p.capacity
  hand : p.clockHand < p.capacity

def unpinnedAt (p : BufferPoolManager) (i : Nat) : Bool :=
  (p.frames[i]?.join).any fun f => f.pinCount == 0

def coldAt (p : BufferPoolManager) (i : Nat) : Bool :=
  (p.frames[i]?.join).any fun f => f.pinCount == 0 && !f.refBit

def ahead (p : BufferPoolManager) (n : Nat) : List Nat :=
  (List.range n).map fun k => (p.clockHand + k) % p.capacity

def clockOrder (p : BufferPoolManager) : List Nat := p.ahead p.capacity

def victim (p : BufferPoolManager) : Option Nat :=
  (p.clockOrder.find? p.coldAt).or (p.clockOrder.find? p.unpinnedAt)

def unreferenced (f : BufferFrame) : BufferFrame := { f with refBit := false }

-- q is p with the hand moved and some reference bits of unpinned frames cleared.
structure Cleared (p q : BufferPoolManager) : Prop where
  frames : ∀ j, q.frames[j]? = p.frames[j]? ∨
    ∃ f, p.Holds j f ∧ f.pinCount = 0 ∧ q.Holds j (unreferenced f)
  length : q.frames.length = p.frames.length
  table : q.pageTable = p.pageTable
  free : q.freeList = p.freeList
  capacity : q.capacity = p.capacity
  disk : q.disk = p.disk

def writeBack (f : BufferFrame) : Prog Error DiskManager Unit :=
  if f.dirty then writePage f.page else pure ()

def dropFrame (i : Nat) (pageId : PageId) (p : BufferPoolManager) : BufferPoolManager :=
  advance (setFrame i none (mapPage pageId none p))

structure Evicts (p : BufferPoolManager) (i : Nat) (f : BufferFrame) (r : Except (Fault Error) Nat)
    (q p' : BufferPoolManager) : Prop where
  cleared : Cleared p q
  hand : q.clockHand = i
  ok : ∀ d, writeBack f p.disk = (.ok (),d) → r = .ok i ∧ p' = dropFrame i f.page.id (withDisk d q)
  error : ∀ e d, writeBack f p.disk = (.error e,d) → r = .error e ∧ p' = withDisk d q

variable {p q : BufferPoolManager} {i n : Nat} {f : BufferFrame}

theorem Cleared.refl (p : BufferPoolManager) : Cleared p p :=
  ⟨fun _ => Or.inl rfl,rfl,rfl,rfl,rfl,rfl⟩

theorem Cleared.trans {p' : BufferPoolManager} (h : Cleared p q) (h' : Cleared q p') :
    Cleared p p' where
  frames j := by
    rcases h'.frames j with hj | ⟨f,hf,h0,hg⟩
    · rcases h.frames j with hj' | ⟨f,hf,h0,hg⟩
      · exact Or.inl (hj.trans hj')
      · exact Or.inr ⟨f,hf,h0,hj.trans hg⟩
    · rcases h.frames j with hj | ⟨g,hg',h0',hf'⟩
      · exact Or.inr ⟨f,by rwa [Holds,← hj],h0,hg⟩
      · obtain rfl := hf.unique hf'
        exact Or.inr ⟨g,hg',h0',hg⟩
  length := h'.length.trans h.length
  table := h'.table.trans h.table
  free := h'.free.trans h.free
  capacity := h'.capacity.trans h.capacity
  disk := h'.disk.trans h.disk

theorem Cleared.unpinnedAt (h : Cleared p q) : q.unpinnedAt = p.unpinnedAt := by
  funext j
  rw [BufferPoolManager.unpinnedAt,BufferPoolManager.unpinnedAt]
  rcases h.frames j with hj | ⟨f,hf,-,hg⟩
  · rw [hj]
  · rw [hf,hg]
    rfl

theorem Cleared.sized (h : Cleared p q) (hs : Sized p) (hh : q.clockHand < p.capacity) : Sized q :=
  ⟨by rw [h.length,h.capacity,hs.size],by rwa [h.capacity]⟩

theorem Cleared.holds (h : Cleared p q) (hf : q.Holds i f) :
    ∃ g, p.Holds i g ∧ (f = g ∨ f = unreferenced g) := by
  rcases h.frames i with hi | ⟨g,hg,-,hg'⟩
  · exact ⟨f,by rwa [Holds,← hi],Or.inl rfl⟩
  · exact ⟨g,hg,Or.inr (hf.unique hg')⟩

theorem Evicts.after {p' : BufferPoolManager} {r : Except (Fault Error) Nat}
    {p1 : BufferPoolManager}
    (h : Evicts p1 i f r q p') (hc : Cleared p p1) : Evicts p i f r q p' := by
  obtain ⟨h1,h2,h3,h4⟩ := h
  rw [hc.disk] at h3 h4
  exact ⟨hc.trans h1,h2,h3,h4⟩

theorem evict_evicts (f : BufferFrame) (p : BufferPoolManager) :
    Prog.Spec (evict f) p (fun r p' => Evicts p p.clockHand f r p p') := by
  obtain ⟨drop,hrun,hdrop⟩ : ∃ drop : Prog Error BufferPoolManager Nat,
      evict f = (onDisk (writeBack f) >>= fun _ => drop) ∧
        ∀ p, drop p = (.ok p.clockHand,dropFrame p.clockHand f.page.id p) := by
    refine ⟨fun p => (.ok p.clockHand,dropFrame p.clockHand f.page.id p),?_,fun _ => rfl⟩
    rw [evict,writeBack]
    cases f.dirty <;> rfl
  rcases hd : writeBack f p.disk with ⟨r,d⟩
  have hon : onDisk (writeBack f) p = (r,withDisk d p) := by
    rw [onDisk,Prog.zoom,hd]
    rfl
  rw [hrun]
  cases r with
  | ok u =>
    rw [Prog.spec_bind_ok hon,Prog.Spec,hdrop]
    refine ⟨.refl p,rfl,fun d' he => ?_,fun e d' he => ?_⟩
    · rw [hd] at he
      cases he
      exact ⟨rfl,rfl⟩
    · rw [hd] at he
      cases he
  | error e =>
    rw [Prog.Spec,Prog.bind_error hon]
    refine ⟨.refl p,rfl,fun d' he => ?_,fun e d' he => ?_⟩
    · rw [hd] at he
      cases he
    · rw [hd] at he
      cases he
      exact ⟨rfl,rfl⟩

theorem ahead_succ (p : BufferPoolManager) (hh : p.clockHand < p.capacity) :
    p.ahead (n + 1) = p.clockHand :: (advance p).ahead n := by
  rw [ahead,List.range_succ_eq_map,List.map_cons,List.map_map,Nat.add_zero,Nat.mod_eq_of_lt hh]
  refine congrArg _ (List.map_congr_left fun k _ => ?_)
  change (p.clockHand + (k + 1)) % p.capacity = ((p.clockHand + 1) % p.capacity + k) % p.capacity
  rw [Nat.mod_add_mod,Nat.add_assoc,Nat.add_comm 1 k]

theorem round_closed {start s c : Nat} (hs : start < c) (hpos : 0 < s)
    (h : (start + s) % c = start) :
    c ≤ s := by
  have hmod : start + s ≡ start + 0 [MOD c] := by
    rw [Nat.ModEq,h,Nat.add_zero,Nat.mod_eq_of_lt hs]
  exact Nat.le_of_dvd hpos ((Nat.modEq_zero_iff_dvd).mp (Nat.ModEq.add_left_cancel' _ hmod))

theorem hand_notMem_ahead (hh : p.clockHand < p.capacity) (hn : n < p.capacity) :
    p.clockHand ∉ (advance p).ahead n := by
  rw [ahead,List.mem_map]
  rintro ⟨k,hk,he⟩
  change ((p.clockHand + 1) % p.capacity + k) % p.capacity = p.clockHand at he
  rw [List.mem_range] at hk
  rw [Nat.mod_add_mod,Nat.add_assoc] at he
  have := round_closed hh (by omega) he
  omega

theorem cleared_advance (p : BufferPoolManager) : Cleared p (advance p) :=
  ⟨fun _ => Or.inl rfl,rfl,rfl,rfl,rfl,rfl⟩

theorem Sized.advanced (h : Sized p) : Sized (advance p) :=
  ⟨h.size,Nat.mod_lt _ (Nat.zero_lt_of_lt h.hand)⟩

theorem Sized.clockStep_exact (h : Sized p) (spare : Bool) :
    (∃ f, p.Holds p.clockHand f ∧ f.pinCount = 0 ∧ (spare = true → f.refBit = false) ∧
      Prog.Spec (clockStep spare) p (fun r p' => ∃ r', Evicts p p.clockHand f r' p p' ∧
        r = r'.map some)) ∨
    ∃ q, clockStep spare p = (.ok none,advance q) ∧ Cleared p q ∧ q.clockHand = p.clockHand ∧
      (∀ j, j ≠ p.clockHand → q.frames[j]? = p.frames[j]?) ∧
      ¬ p.coldAt p.clockHand = true ∧
      (spare = false → q = p ∧ ¬ p.unpinnedAt p.clockHand = true) := by
  have hlt : p.clockHand < p.frames.length := h.size ▸ h.hand
  have hget := List.getElem?_eq_getElem hlt
  cases hs : p.frames[p.clockHand] with
  | none =>
    rw [hs] at hget
    refine Or.inr ⟨p,?_,.refl p,rfl,fun _ _ => rfl,?_,fun _ => ⟨rfl,?_⟩⟩
    · rw [clockStep]
      simp only [Prog.get_bind_run,hget,Prog.ofOption_some,Prog.pure_bind_run]
      rfl
    · rw [coldAt,hget]
      exact Bool.false_ne_true
    · rw [unpinnedAt,hget]
      exact Bool.false_ne_true
  | some f =>
    rw [hs] at hget
    have hf : p.Holds p.clockHand f := hget
    by_cases hpin : f.pinCount = 0
    · by_cases href : (spare && f.refBit) = true
      · -- the second chance
        obtain ⟨rfl,hbit⟩ : spare = true ∧ f.refBit = true := by simpa using href
        have hframes (j : Nat) := getElem?_setFrame hlt (some (unreferenced f)) j
        refine Or.inr ⟨setFrame p.clockHand (some (unreferenced f)) p,?_,?_,rfl,fun j hj => ?_,?_,
          fun e => by cases e⟩
        · rw [clockStep]
          simp only [Prog.get_bind_run,hget,Prog.ofOption_some,Prog.pure_bind_run,if_pos hpin,
            if_pos href]
          rfl
        · refine ⟨fun j => ?_,List.length_set,rfl,rfl,rfl,rfl⟩
          by_cases hj : j = p.clockHand
          · subst hj
            exact Or.inr ⟨f,hf,hpin,(hframes _).trans (if_pos rfl)⟩
          · exact Or.inl ((hframes j).trans (if_neg hj))
        · exact (hframes j).trans (if_neg hj)
        · rw [coldAt,hget]
          simp [hbit]
      · refine Or.inl ⟨f,hf,hpin,fun hsp => ?_,?_⟩
        · rw [hsp,Bool.true_and] at href
          exact Bool.eq_false_iff.mpr href
        · have hrun : clockStep spare p = (some <$> evict f) p := by
            rw [clockStep]
            simp only [Prog.get_bind_run,hget,Prog.ofOption_some,Prog.pure_bind_run,if_pos hpin,
              if_neg href]
            rfl
          rw [Prog.Spec,hrun,Prog.map_run]
          exact ⟨_,evict_evicts f p,rfl⟩
    · refine Or.inr ⟨p,?_,.refl p,rfl,fun _ _ => rfl,?_,fun _ => ⟨rfl,?_⟩⟩
      · rw [clockStep]
        simp only [Prog.get_bind_run,hget,Prog.ofOption_some,Prog.pure_bind_run,if_neg hpin]
        rfl
      · rw [coldAt,hget]
        simp [hpin]
      · rw [unpinnedAt,hget]
        simp [hpin]

def Searched (p : BufferPoolManager) (r : Except (Fault Error) Nat) (p' : BufferPoolManager)
    (missed : Prop) : Option Nat → Prop
  | some i => ∃ f q, p.Holds i f ∧ f.pinCount = 0 ∧ Evicts p i f r q p'
  | none => missed

theorem Searched.after {p1 p' : BufferPoolManager} {r : Except (Fault Error) Nat}
    {missed missed' : Prop} {found : Option Nat} (h : Searched p1 r p' missed found)
    (hc : Cleared p p1) (hm : missed → missed') : Searched p r p' missed' found := by
  cases found with
  | none => exact hm h
  | some i =>
    obtain ⟨f,q,hf,h0,he⟩ := h
    obtain ⟨g,hg,rfl | rfl⟩ := hc.holds hf
    · exact ⟨f,q,hg,h0,he.after hc⟩
    · obtain ⟨h1,h2,h3,h4⟩ := he.after hc
      exact ⟨g,q,hg,h0,h1,h2,h3,h4⟩

-- A step that takes the frame under the hand ends either loop.
theorem searched_found {m : Prog Error BufferPoolManager (Option Nat)}
    {k : Option Nat → Prog Error BufferPoolManager Nat}
    {missed : Except (Fault Error) Nat → BufferPoolManager → Prop} (hf : p.Holds i f)
    (h0 : f.pinCount = 0)
    (hstep : Prog.Spec m p (fun r p' => ∃ r', Evicts p i f r' p p' ∧ r = r'.map some))
    (hk : ∀ j, k (some j) = pure j) :
    Prog.Spec (m >>= k) p (fun r p' => Searched p r p' (missed r p') (some i)) := by
  refine hstep.bind ?_ ?_
  · rintro v p' ⟨r,hev,hr⟩
    cases r with
    | error e => cases hr
    | ok j =>
      cases hr
      rw [hk]
      exact ⟨f,p,hf,h0,hev⟩
  · rintro e p' ⟨r,hev,hr⟩
    cases r with
    | ok j => cases hr
    | error e =>
      cases hr
      exact ⟨f,p,hf,h0,hev⟩

-- The frames ahead are as before the step, which has changed the one under the hand at most.
theorem Sized.find_ahead (h : Sized p) (hcap : q.capacity = p.capacity)
    (hhand : q.clockHand = p.clockHand)
    (hothers : ∀ j, j ≠ p.clockHand → q.frames[j]? = p.frames[j]?) (hn : n < p.capacity) :
    ((advance p).ahead n).find? p.coldAt = ((advance q).ahead n).find? (advance q).coldAt := by
  have hrest : (advance p).ahead n = (advance q).ahead n := by
    rw [ahead,ahead]
    change (List.range n).map (fun k => ((p.clockHand + 1) % p.capacity + k) % p.capacity) =
      (List.range n).map (fun k => ((q.clockHand + 1) % q.capacity + k) % q.capacity)
    rw [hhand,hcap]
  rw [← hrest]
  refine List.find?_congr fun j hj => ?_
  have hne : j ≠ p.clockHand := by
    rintro rfl
    exact hand_notMem_ahead h.hand hn hj
  rw [coldAt,coldAt]
  change _ = (q.frames[j]?.join).any _
  rw [hothers j hne]

theorem Sized.lastPass_exact (h : Sized p) (n : Nat) :
    Prog.Spec (lastPass n) p (fun r p' => Searched p r p' (r = .error (.err .bufferPoolFull) ∧
      p' = { p with clockHand := (p.clockHand + n) % p.capacity })
        ((p.ahead n).find? p.unpinnedAt)) := by
  induction n generalizing p with
  | zero =>
    refine ⟨rfl,?_⟩
    rw [Nat.add_zero,Nat.mod_eq_of_lt h.hand]
    rfl
  | succ n ih =>
    rw [ahead_succ p h.hand]
    rcases h.clockStep_exact false with ⟨f,hf,h0,-,hstep⟩ | ⟨q,he,hc,hh,hothers,-,hpinned⟩
    · have hu : p.unpinnedAt p.clockHand = true := by
        rw [unpinnedAt,hf]
        simp [h0]
      rw [List.find?_cons_of_pos hu,lastPass]
      exact searched_found hf h0 hstep fun _ => rfl
    · obtain ⟨rfl,hpin⟩ := hpinned rfl
      rw [List.find?_cons_of_neg hpin,lastPass,Prog.spec_bind_ok he]
      refine (ih h.advanced).mono fun r p' hs => hs.after (cleared_advance q) ?_
      rintro ⟨hr,hp⟩
      refine ⟨hr,hp.trans ?_⟩
      change { q with clockHand := ((q.clockHand + 1) % q.capacity + n) % q.capacity } = _
      rw [Nat.mod_add_mod,Nat.add_assoc,Nat.add_comm 1 n]

-- The first loop: an unpinned frame without its reference bit, or a round that clears them all.
theorem Sized.clockLoop_exact (h : Sized p) {start s fuel : Nat} (hs : start < p.capacity)
    (hhand : p.clockHand = (start + s) % p.capacity) (hfuel : fuel + s = p.capacity)
    (hpos : 0 < fuel) :
    Prog.Spec (clockLoop start (fuel + 1)) p (fun r p' => Searched p r p'
      (∃ q, Cleared p q ∧ q.clockHand = start ∧ lastPass p.capacity q = (r,p'))
        ((p.ahead fuel).find? p.coldAt)) := by
  induction fuel generalizing p s with
  | zero => omega
  | succ fuel ih =>
    rw [ahead_succ p h.hand]
    rcases h.clockStep_exact true with ⟨f,hf,h0,hbit,hstep⟩ | ⟨q,he,hc,hh,hothers,hcold,-⟩
    · have hcold : p.coldAt p.clockHand = true := by
        rw [coldAt,hf]
        simp [h0,hbit rfl]
      rw [List.find?_cons_of_pos hcold,clockLoop]
      exact searched_found hf h0 hstep fun _ => rfl
    · have hcap := hc.capacity
      have hc' : Cleared p (advance q) := hc.trans (cleared_advance q)
      have hstep : (advance q).clockHand = (start + (s + 1)) % p.capacity := by
        change (q.clockHand + 1) % q.capacity = _
        rw [hh,hcap,hhand,Nat.mod_add_mod,Nat.add_assoc]
      rw [List.find?_cons_of_neg hcold,h.find_ahead hcap hh hothers (by omega),clockLoop,
        Prog.spec_bind_ok he]
      simp only [Prog.spec_get_bind]
      split_ifs with hback
      · have hfuel0 : fuel = 0 := by
          rw [hstep] at hback
          have := round_closed hs (Nat.succ_pos s) hback
          omega
        subst hfuel0
        exact ⟨advance q,hc',hback,by rw [← hc'.capacity]⟩
      · -- the loop has not come round, so fuel is left
        have hne : fuel ≠ 0 := by
          rintro rfl
          rw [hstep,show start + (s + 1) = start + p.capacity by omega,Nat.add_mod_right,
            Nat.mod_eq_of_lt hs] at hback
          exact hback rfl
        have hsized : Sized (advance q) := hc'.sized h (hstep ▸ Nat.mod_lt _ (by omega))
        refine (ih hsized (s := s + 1) (by rw [hc'.capacity]; exact hs)
          (by rw [hc'.capacity]; exact hstep) (by rw [hc'.capacity]; omega) (by omega)).mono
            fun r p' hr => hr.after hc' ?_
        rintro ⟨q',hq',hhand',hlast⟩
        exact ⟨q',hc'.trans hq',hhand',by rwa [hc'.capacity] at hlast⟩

theorem unpinnedAt_iff : p.unpinnedAt i = true ↔ ∃ f, p.Holds i f ∧ f.pinCount = 0 := by
  rw [unpinnedAt,Option.any_eq_true]
  constructor
  · rintro ⟨f,hf,h0⟩
    exact ⟨f,Option.join_eq_some_iff.mp hf,by simpa using h0⟩
  · rintro ⟨f,hf,h0⟩
    exact ⟨f,Option.join_eq_some_iff.mpr hf,by simpa using h0⟩

theorem Sized.mem_ahead (h : Sized p) (hi : i < p.capacity) : i ∈ p.ahead p.capacity := by
  have hh := h.hand
  refine List.mem_map.mpr ⟨(i + p.capacity - p.clockHand) % p.capacity,
    List.mem_range.mpr (Nat.mod_lt _ (by omega)),?_⟩
  rw [Nat.add_mod_mod,show p.clockHand + (i + p.capacity - p.clockHand) = i + p.capacity by omega,
    Nat.add_mod_right,Nat.mod_eq_of_lt hi]

theorem Sized.find_unpinned_none (h : Sized p)
    (hn : (p.ahead p.capacity).find? p.unpinnedAt = none) : ¬ Unpinned p := by
  rintro ⟨i,f,hf,h0⟩
  exact List.find?_eq_none.mp hn i (h.mem_ahead (h.size ▸ hf.lt)) (unpinnedAt_iff.mpr ⟨f,hf,h0⟩)

theorem Cleared.frames_eq (h : Cleared p q) (hu : ¬ Unpinned p) : q.frames = p.frames := by
  refine List.ext_getElem? fun j => ?_
  rcases h.frames j with hj | ⟨f,hf,h0,-⟩
  · exact hj
  · exact absurd ⟨j,f,hf,h0⟩ hu

theorem Sized.getFreeFrame_searched (h : Sized p) (hfree : p.freeList = []) :
    Prog.Spec getFreeFrame p (fun r p' =>
      Searched p r p' (r = .error (.err .bufferPoolFull) ∧ p' = p) p.victim) := by
  rw [getFreeFrame]
  simp only [Prog.spec_get_bind,hfree]
  have hh := h.hand
  refine (h.clockLoop_exact (s := 0) hh (by rw [Nat.add_zero,Nat.mod_eq_of_lt hh]) (by omega)
    (by omega)).mono fun r p' hs => ?_
  rw [victim,clockOrder]
  cases hcold : (p.ahead p.capacity).find? p.coldAt with
  | some i =>
    rw [hcold] at hs
    exact hs
  | none =>
    rw [hcold] at hs
    obtain ⟨q,hc,hhand,hlast⟩ := hs
    have hsized : Sized q := hc.sized h (hhand ▸ hh)
    have hpass := (hsized.lastPass_exact p.capacity).of_eq hlast
    have hahead : q.ahead p.capacity = p.ahead p.capacity := by
      rw [ahead,ahead,hhand,hc.capacity]
    rw [hahead,hc.unpinnedAt,hc.capacity,hhand,Nat.add_mod_right,Nat.mod_eq_of_lt hh] at hpass
    rw [Option.none_or]
    cases hun : (p.ahead p.capacity).find? p.unpinnedAt with
    | some i =>
      rw [hun] at hpass
      have hfound : Searched q r p' False (some i) := hpass
      exact hfound.after hc False.elim
    | none =>
      rw [hun] at hpass
      obtain ⟨hr,rfl⟩ := hpass
      rw [hc.frames_eq (h.find_unpinned_none hun),hc.table,hc.free,hc.disk]
      exact ⟨hr,rfl⟩

theorem Sized.victim_none (h : Sized p) : p.victim = none ↔ ¬ Unpinned p := by
  rw [victim,clockOrder,Option.or_eq_none_iff]
  constructor
  · exact fun hn => h.find_unpinned_none hn.2
  · intro hu
    have hnot (i : Nat) : ¬ p.unpinnedAt i = true := by
      rw [unpinnedAt_iff]
      rintro ⟨f,hf⟩
      exact hu ⟨i,f,hf⟩
    refine ⟨List.find?_eq_none.mpr fun i _ hc => hnot i ?_,List.find?_eq_none.mpr fun i _ => hnot i⟩
    rw [coldAt,Option.any_eq_true] at hc
    obtain ⟨f,hf,h0⟩ := hc
    rw [unpinnedAt,Option.any_eq_true]
    exact ⟨f,hf,(Bool.and_eq_true_iff.mp h0).1⟩

def written (pg : Page) (d : DiskManager) : DiskManager :=
  { d.store pg with faults := d.faults.tail }

theorem writeBack_calm (f : BufferFrame) {d : DiskManager} (h : d.faults.headD none = none) :
    writeBack f d = (.ok (),if f.dirty then written f.page d else d) := by
  rw [writeBack]
  cases f.dirty with
  | false => rfl
  | true =>
    change writePage f.page d = (.ok (),written f.page d)
    have htick : tick d = (.ok none,{ d with faults := d.faults.tail }) := by rw [tick,h]
    have hat : writeAt (f.page.id.toNat * pageSize) f.page.data d =
        (.ok (),{ d with
          file := Bytes.overwrite d.file (f.page.id.toNat * pageSize) f.page.data
          faults := d.faults.tail }) := by
      rw [writeAt,Prog.bind_ok htick]
      rfl
    rw [writePage,Prog.bind_ok hat]
    rfl

-- p' is p without the frame f at i: other frames keep all but the reference bits of unpinned ones.
structure Evicted (p : BufferPoolManager) (i : Nat) (f : BufferFrame) (p' : BufferPoolManager) :
    Prop where
  slot : p'.frames[i]? = some none
  others : ∀ j, j ≠ i → p'.frames[j]? = p.frames[j]? ∨
    ∃ g, p.Holds j g ∧ g.pinCount = 0 ∧ p'.Holds j (unreferenced g)
  table : p'.pageTable = Function.update p.pageTable f.page.id none
  disk : p'.disk = if f.dirty then written f.page p.disk else p.disk
  hand : p'.clockHand = (i + 1) % p.capacity
  free : p'.freeList = p.freeList

theorem Evicts.evicted {p' : BufferPoolManager} {r : Except (Fault Error) Nat}
    (he : Evicts p i f r q p') (hf : p.Holds i f) (hw : p.disk.faults.headD none = none) :
    r = .ok i ∧ Evicted p i f p' := by
  obtain ⟨hr,rfl⟩ := he.ok _ (writeBack_calm f hw)
  have hlt : i < q.frames.length := by
    rw [he.cleared.length]
    exact hf.lt
  have hframes (j : Nat) : (dropFrame i f.page.id (withDisk (if f.dirty then written f.page p.disk
      else p.disk) q)).frames[j]? = if j = i then some none else q.frames[j]? :=
    getElem?_setFrame (p := mapPage f.page.id none (withDisk _ q)) hlt none j
  refine ⟨hr,(hframes i).trans (if_pos rfl),fun j hj => ?_,?_,rfl,?_,he.cleared.free⟩
  · have hkept := (hframes j).trans (if_neg hj)
    rcases he.cleared.frames j with hq | ⟨g,hg,h0,hq⟩
    · exact Or.inl (hkept.trans hq)
    · exact Or.inr ⟨g,hg,h0,hkept.trans hq⟩
  · exact congrArg (Function.update · f.page.id none) he.cleared.table
  · change (q.clockHand + 1) % q.capacity = _
    rw [he.hand,he.cleared.capacity]

structure ClockExact (p : BufferPoolManager) (r : Except (Fault Error) Nat)
    (p' : BufferPoolManager) : Prop where
  front : ∀ i rest, p.freeList = i :: rest → r = .ok i ∧ p' = { p with freeList := rest }
  evicted : p.freeList = [] → ∀ i, p.victim = some i →
    ∃ f, p.Holds i f ∧ f.pinCount = 0 ∧ r = .ok i ∧ Evicted p i f p'
  full : r = .error (.err .bufferPoolFull) ↔ p.freeList = [] ∧ ¬ Unpinned p
  unchanged : r = .error (.err .bufferPoolFull) → p' = p
  found : ¬ Unpinned p ↔ p.victim = none
  pinned : ∀ i f, p.Holds i f → f.pinCount ≠ 0 → p'.Holds i f

theorem getFreeFrame_exact (h : Sized p) (hw : p.disk.faults.headD none = none) :
    Prog.Spec getFreeFrame p (ClockExact p) := by
  cases hfree : p.freeList with
  | cons i rest =>
    have hrun : getFreeFrame p = (.ok i,{ p with freeList := rest }) := by
      rw [getFreeFrame,Prog.get_bind_run,hfree]
      rfl
    rw [Prog.Spec,hrun]
    refine ⟨fun j js he => ?_,fun he => ?_,iff_of_false (fun e => by cases e) (fun he => ?_),
      fun e => (by cases e),h.victim_none.symm,fun j f hf _ => hf⟩
    · rw [hfree] at he
      cases he
      exact ⟨rfl,rfl⟩
    · rw [hfree] at he
      cases he
    · rw [hfree] at he
      cases he.1
  | nil =>
    refine (h.getFreeFrame_searched hfree).mono fun r p' hs => ?_
    have hfront (i : Nat) (rest : List Nat) (he : p.freeList = i :: rest) :
        r = .ok i ∧ p' = { p with freeList := rest } := by
      rw [hfree] at he
      cases he
    cases hv : p.victim with
    | none =>
      rw [hv] at hs
      obtain ⟨rfl,rfl⟩ := hs
      refine ⟨hfront,fun _ i hi => ?_,iff_of_true rfl ⟨hfree,h.victim_none.mp hv⟩,fun _ => rfl,
        h.victim_none.symm,fun j f hf _ => hf⟩
      rw [hv] at hi
      cases hi
    | some i =>
      rw [hv] at hs
      obtain ⟨f,q,hf,h0,he⟩ := hs
      obtain ⟨rfl,hev⟩ := he.evicted hf hw
      have hu : Unpinned p := ⟨i,f,hf,h0⟩
      refine ⟨hfront,fun _ j hj => ?_,iff_of_false (fun e => by cases e) (fun hn => hn.2 hu),
        fun e => (by cases e),h.victim_none.symm,fun j g hg hpin => ?_⟩
      · rw [hv] at hj
        cases hj
        exact ⟨f,hf,h0,rfl,hev⟩
      · have hji : j ≠ i := by
          rintro rfl
          rw [hg.unique hf] at hpin
          exact hpin h0
        rcases hev.others j hji with hj | ⟨g',hg',hg0,-⟩
        · exact hj.trans hg
        · rw [hg.unique hg'] at hpin
          exact absurd hg0 hpin

-- Frame 1 is pinned and frame 0 has its reference bit: the hand goes round once and evicts frame 0.
def secondChance : BufferPoolManager where
  frames := [some ⟨Page.new 0,0,true,true⟩,some ⟨Page.new 1,1,false,true⟩]
  pageTable := Function.update (Function.update (fun _ => none) 0 (some 0)) 1 (some 1)
  freeList := []
  clockHand := 1
  capacity := 2
  disk := .open_ (List.replicate (2 * pageSize) 0) []

theorem getFreeFrame_exact_second_chance : secondChance.victim = some 0 ∧
    (getFreeFrame secondChance).1 = .ok 0 ∧ ∃ f, secondChance.Holds 0 f ∧ f.pinCount = 0 ∧
      Evicted secondChance 0 f (getFreeFrame secondChance).2 := by
  have hexact : ClockExact _ _ _ := getFreeFrame_exact (p := secondChance) ⟨rfl,Nat.one_lt_two⟩ rfl
  obtain ⟨f,hf,h0,hr,he⟩ := hexact.evicted rfl 0 rfl
  exact ⟨rfl,hr,f,hf,h0,he⟩

end BufferPoolManager

end StorageDb
