/-
The volatile headers of the objects (`ts_act_vhdr_t`).

An object in NVM has a pointer to a header in DRAM, which is allocated when the object is
locked for the first time or when recovery finds a checkpoint entry of it.  The pointer is
itself in NVM; the generation beside it says in which run it was stored.  A pointer is
modelled with the generation of the run that allocated the header, so that a pointer that is
left from an earlier run is different from all those of the current one.
-/
import TimeStone.Ckptlog

namespace TimeStone.Vhdr

open Ckptlog

/-- The address of an object in NVM: an original master, or the object area of a checkpoint
entry. -/
inductive Act
  | master (obj : ℕ)
  | entry (p : EntryPtr)
  deriving DecidableEq

/-- The address of a header: the run that allocated it, and its number in that run. -/
structure VhdrPtr where
  gen : ℕ
  num : ℕ
  deriving DecidableEq

/-- `ts_act_vhdr_t`; copies are numbers, `none` is `NULL`. -/
structure ActVhdr where
  pCopy : Option ℕ
  pLock : Option ℕ
  npOrgAct : Act
  npCurAct : Act
  tombstoneClk : ℕ
  deriving DecidableEq

/-- `ts_act_nvhdr_t`. -/
structure ActNvhdr where
  pActVhdr : Option VhdrPtr
  genId : ℕ
  deriving DecidableEq

/-- `gen_id` of the NVM root, the header of every original master, the volatile headers, and
the number of those that were allocated in this run. -/
structure Heap where
  genId : ℕ
  nvhdr : ℕ → ActNvhdr
  vhdr : VhdrPtr → ActVhdr
  next : ℕ

/-- `alloc_act_vhdr`: the header of `np_org_act`, and the heap with it. -/
def allocActVhdr (h : Heap) (npOrgAct : Act) : VhdrPtr × Heap :=
  let p : VhdrPtr := ⟨h.genId, h.next⟩
  (p, { h with
    vhdr := Function.update h.vhdr p ⟨none, none, npOrgAct, npOrgAct, maxVersion⟩
    next := h.next + 1 })

/-- Store `act_nvhdr` of a master. -/
def Heap.setNvhdr (h : Heap) (obj : ℕ) (n : ActNvhdr) : Heap :=
  { h with nvhdr := Function.update h.nvhdr obj n }

/-- Store `np_cur_act` of a header. -/
def Heap.setCurAct (h : Heap) (v : VhdrPtr) (a : Act) : Heap :=
  { h with vhdr := Function.update h.vhdr v { h.vhdr v with npCurAct := a } }

/-- What `reconstruct_volatile_header` reads of a checkpoint entry: the address of its object
area, its original master and its write clock. -/
structure Replayed where
  ptr : EntryPtr
  npOrgAct : ℕ
  wrtClk : ℕ
  deriving DecidableEq

/-- `reconstruct_volatile_header`, with an allocation that succeeds.  `wrtClkAt` is what the
memory holds in front of an object area, where an entry has its write clock. -/
def reconstructVolatileHeader (wrtClkAt : Act → ℕ) (h : Heap) (x : Replayed) : Heap :=
  let actNvhdr := h.nvhdr x.npOrgAct
  match actNvhdr.pActVhdr with
  | some v =>
    if actNvhdr.genId ≠ h.genId then
      let (v', h') := allocActVhdr h (.entry x.ptr)
      h'.setNvhdr x.npOrgAct ⟨some v', h.genId⟩
    else if wrtClkAt (h.vhdr v).npCurAct < x.wrtClk then h.setCurAct v (.entry x.ptr)
    else h
  | none =>
    let (v', h') := allocActVhdr h (.entry x.ptr)
    h'.setNvhdr x.npOrgAct ⟨some v', h.genId⟩

end TimeStone.Vhdr
