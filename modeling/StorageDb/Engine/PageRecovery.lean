import Mathlib.Tactic
import StorageDb.Lib.Restart
import StorageDb.Buffer.PoolSpec
import StorageDb.Buffer.Pins
import StorageDb.Wal.Reopen
import StorageDb.Engine.StorageEngine

namespace StorageDb
open Bytes Restart

theorem Page.getElem?_overlay (image : Bytes) (pg : Page) (k : Nat) :
    (pg.overlay image).data[k]? =
      if k < image.length ∧ k < pageSize then image[k]? else pg.data[k]? := by
  have hs := pg.size
  have hl : (image.take pageSize).length = min pageSize image.length := List.length_take ..
  rw [Page.overlay]
  dsimp only
  rw [getElem?_splice (by omega),if_neg (Nat.not_lt_zero k),Nat.zero_add,Nat.sub_zero,hl]
  by_cases hk : k < image.length ∧ k < pageSize
  · rw [if_pos hk,if_pos (by omega),List.getElem?_take,if_pos hk.2]
  · rw [if_neg hk,if_neg (by omega)]

theorem Page.overlay_absorbing : Absorbing Page.overlay where
  idem i pg := by
    refine Page.ext rfl (List.ext_getElem? fun k => ?_)
    simp only [Page.getElem?_overlay]
    split_ifs <;> rfl
  absorb i j pg := by
    refine Page.ext rfl (List.ext_getElem? fun k => ?_)
    simp only [Page.getElem?_overlay]
    split_ifs <;> rfl

def imagesFor (pid : PageId) (images : List (PageId × Bytes)) : List Bytes :=
  (images.filter (fun x => x.1 = pid)).map Prod.snd

theorem imagesFor_append (pid : PageId) (xs ys : List (PageId × Bytes)) :
    imagesFor pid (xs ++ ys) = imagesFor pid xs ++ imagesFor pid ys := by
  rw [imagesFor,List.filter_append,List.map_append,imagesFor,imagesFor]

theorem imagesFor_cons (pid : PageId) (x : PageId × Bytes) (xs : List (PageId × Bytes)) :
    imagesFor pid (x :: xs) = if x.1 = pid then x.2 :: imagesFor pid xs else imagesFor pid xs := by
  by_cases h : x.1 = pid <;> simp [imagesFor,h]

namespace StorageEngine
open BufferPoolManager

variable {p : BufferPoolManager}

theorem applyImage_eq (h : Quiet p) (pid : PageId) (image : Bytes) :
    ∃ p', applyImage p.disk.numPages pid image p = (.ok (),p') ∧ Quiet p' ∧
      p'.lookup = Function.update p.lookup pid ((p.lookup pid).map (Page.overlay image)) ∧
      p'.disk.numPages = p.disk.numPages := by
  cases hl : p.lookup pid with
  | none =>
    have hlt : ¬ pid < p.disk.numPages := by
      rw [UInt32.lt_iff_toNat_lt,← h.inv.lookup_isSome,hl]
      simp
    refine ⟨p,by rw [applyImage,if_neg hlt]; rfl,h,?_,rfl⟩
    rw [Option.map_none,← hl,Function.update_eq_self]
  | some pg =>
    have hlt : pid < p.disk.numPages := by
      rw [UInt32.lt_iff_toNat_lt,← h.inv.lookup_isSome,hl]
      rfl
    have hid := h.inv.lookup_id hl
    obtain ⟨i,p1,hfetch,h1,hl1,hn1⟩ := h.idle.fetchPageMut_eq hl
    obtain ⟨p2,hmod,h2,hput⟩ := h1.modifyPage_eq (g := Page.overlay image) rfl rfl
    obtain ⟨p3,hun,h3,hl3,hn3⟩ := h2.unpinPage_eq true
    have hpid : (pg.overlay image).id = pid := hid
    simp only [hpid] at hun
    refine ⟨p3,?_,h3.quiet rfl,?_,(hn3.trans hput.pages).trans hn1⟩
    · rw [applyImage,if_pos hlt,Prog.bind_ok hfetch,Prog.bind_ok hmod,hun]
    · rw [hl3,hput.lookup,hl1,hpid]
      rfl

theorem applyImages_eq (h : Quiet p) (images : List (PageId × Bytes)) :
    ∃ p', applyImages p.disk.numPages images p = (.ok (),p') ∧ Quiet p' ∧
      (∀ q, p'.lookup q = (p.lookup q).map (applyAll Page.overlay (imagesFor q images))) ∧
      p'.disk.numPages = p.disk.numPages := by
  induction images generalizing p with
  | nil =>
    refine ⟨p,rfl,h,fun q => ?_,rfl⟩
    rw [show applyAll Page.overlay (imagesFor q []) = id from rfl,Option.map_id,id]
  | cons x images ih =>
    obtain ⟨pid,image⟩ := x
    obtain ⟨p1,h1,hq1,hl1,hn1⟩ := applyImage_eq h pid image
    obtain ⟨p2,h2,hq2,hl2,hn2⟩ := ih hq1
    rw [hn1] at h2
    refine ⟨p2,by rw [applyImages,Prog.bind_ok h1]; exact h2,hq2,fun q => ?_,hn2.trans hn1⟩
    rw [hl2,hl1,imagesFor_cons]
    by_cases hq : q = pid
    · subst hq
      rw [Function.update_self,if_pos rfl,Option.map_map]
      rfl
    · rw [Function.update_of_ne hq,if_neg (Ne.symm hq)]

variable {e : StorageEngine} {actions : RecoveryActions}

structure Recovered (actions : RecoveryActions) (e e' : StorageEngine) : Prop where
  quiet : Quiet e'.pool
  pages : e'.pool.disk.numPages = e.pool.disk.numPages
  clean : e'.pool.disk.pageAt = e'.pool.lookup
  pageAt : ∀ q, e'.pool.disk.pageAt q = (e.pool.disk.pageAt q).map
    (applyAll Page.overlay (imagesFor q (actions.redo ++ actions.undo)))
  btree : e'.btree = e.btree
  txnManager : e'.txnManager = e.txnManager
  wal : e'.wal = if actions.redo = [] ∧ actions.undo = [] then e.wal else e.wal.truncated

theorem recover_eq (h : Quiet e.pool) (hclean : e.pool.disk.pageAt = e.pool.lookup)
    (hw : e.wal.faults = []) (hr : WalManager.recover e.wal = (.ok actions,e.wal)) :
    ∃ e', recover e = (.ok (),e') ∧ Recovered actions e e' := by
  by_cases hnil : actions.redo = [] ∧ actions.undo = []
  · refine ⟨e,?_,h,rfl,hclean,fun q => ?_,rfl,rfl,(if_pos hnil).symm⟩
    · rw [recover,Prog.bind_ok (onWal_ok hr),if_pos hnil]
      rfl
    · rw [hnil.1,hnil.2]
      change _ = (e.pool.disk.pageAt q).map id
      rw [Option.map_id,id]
  · obtain ⟨p1,h1,hq1,hl1,hn1⟩ := applyImages_eq h actions.redo
    obtain ⟨p2,h2,hq2,hl2,hn2⟩ := applyImages_eq hq1 actions.undo
    obtain ⟨p3,h3,hi3,hk3,hat3⟩ := hq2.inv.flushAll_spec
    rw [hn1] at h2
    refine ⟨{ e with pool := p3, wal := e.wal.truncated },?_,⟨hi3,hq2.keeps hk3⟩,
      (hk3.pages.trans hn2).trans hn1,hat3.trans hk3.lookup.symm,fun q => ?_,rfl,rfl,
      (if_neg hnil).symm⟩
    · rw [recover,Prog.bind_ok (onWal_ok hr),if_neg hnil,Prog.get_bind_run,
        Prog.bind_ok (onPool_ok h1),Prog.bind_ok (onPool_ok h2),Prog.bind_ok (onPool_ok h3)]
      exact onWal_ok (WalManager.truncate_calm hw)
    · rw [hat3,hl2,hl1,Option.map_map,imagesFor_append,hclean]
      congr 1
      funext pg
      exact applyAll_append.symm

end StorageEngine

end StorageDb
