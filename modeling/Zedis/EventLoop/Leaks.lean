/-
**Blocks of the slab that never come back.**

A connection holds two blocks, which `conn_destroy` gives back. The nodes of its parser are blocks of
the slab too; they go to the parser's own free list, and `resp_parser_destroy` frees that list only for
a parser without a slab. So each block that is taken for a node is lost with its connection. `Ledger` is
the account of the blocks: those of the connections, and those taken for nodes, which only grow.

`no_block_leaked_iff`: in a state without connections every block is free again exactly if no call of
`resp_parser_next` has needed a node while the slab has blocks for nodes. The free lists are those of the
model, whose link words are apart from the write buffers, while the last eight bytes of a full write
buffer lie on the link word of the next block; so it also says when no write buffer gets so full.
-/

import Zedis.EventLoop.Output
import Zedis.Resp.Demand

namespace Zedis.EventLoop

open Zedis.Lib Zedis.Resp Zedis.Connection Zedis.Slab Zedis.Server

/-- The two blocks of a connection. -/
def blocksOf (memory : Nat → ConnMemory) (fd : Nat) : List Live :=
  [⟨slab4096, (memory fd).writeBuf, zedisConnWriteSize⟩, ⟨slab512, (memory fd).conn, slabClass slab512⟩]

/-- **The account of the blocks**: `blocks` were taken for nodes. As long as there are none, no parser
has asked for one, unless the slab has no blocks for them. -/
structure Ledger (slab : ZedisSlab) (fds : List Nat) (memory : Nat → ConnMemory)
    (blocks : List Live) : Prop where
  inv : SlabInv ⟨slab, fds.flatMap (blocksOf memory) ++ blocks⟩
  fresh : blocks = [] →
    (slab.pools slab256).blockCount = 0 ∨ ∀ fd ∈ fds, (memory fd).nodes.asked = 0

/-- The account of a system. -/
def System.Holds (s : System) (blocks : List Live) : Prop :=
  Ledger s.slab (s.server.conns.map Conn.fd) s.memory blocks

/-- The condition on an event: no node is needed, or the slab has no blocks for nodes. -/
def NodeFree (s : System) : SystemEvent → Prop
  | .parse _ => ∀ fd conn, s.phase = .dispatching fd → connOf s.server fd = some conn →
      needsNode (unread conn.parser) = false ∨ (s.slab.pools slab256).blockCount = 0
  | _ => True

/-! ### Nodes -/

section Nodes

variable {slab : ZedisSlab} {live : List Live}

theorem poolForSize_node : poolForSize respNodeSize = some slab256 := rfl

theorem takeNodes_of_empty (empty : (slab.pools slab256).freeList = none) (n : Nat) :
    takeNodes slab n = slab := by
  induction n with
  | zero => rfl
  | succ n ih => rw [takeNodes, ih, zedisSlabAlloc_none slab poolForSize_node empty]

/-- **The blocks for some requests**: there are none exactly if there is no request or no free block. -/
theorem takeNodes_spec (inv : SlabInv ⟨slab, live⟩) (n : Nat) : ∃ more,
    SlabInv ⟨takeNodes slab n, more ++ live⟩ ∧
      ((takeNodes slab n).pools slab256).blockCount = (slab.pools slab256).blockCount ∧
      (more = [] ↔ n = 0 ∨ (slab.pools slab256).freeList = none) := by
  by_cases empty : (slab.pools slab256).freeList = none
  · rw [takeNodes_of_empty empty]
    exact ⟨[], inv, rfl, iff_of_true rfl (Or.inr empty)⟩
  induction n with
  | zero => exact ⟨[], inv, rfl, iff_of_true rfl (Or.inl rfl)⟩
  | succ n ih =>
    obtain ⟨more, taken, count, none⟩ := ih
    rw [takeNodes]
    cases head : ((takeNodes slab n).pools slab256).freeList with
    | none =>
      rw [zedisSlabAlloc_none _ poolForSize_node head]
      refine ⟨more, taken, count, ?_⟩
      rw [none]
      refine or_congr_left (iff_of_false ?_ (Nat.succ_ne_zero n))
      rintro rfl
      exact empty head
    | some block =>
      rw [zedisSlabAlloc_some _ poolForSize_node head]
      refine ⟨_ :: more, taken.alloc poolForSize_node head, ?_,
        iff_of_false nofun (not_or.mpr ⟨Nat.succ_ne_zero n, empty⟩)⟩
      dsimp only
      rw [Function.update_self]
      exact count

end Nodes

/-! ### The operations -/

section Ledger

variable {slab : ZedisSlab} {fds : List Nat} {memory : Nat → ConnMemory} {blocks : List Live} {fd : Nat}

theorem flatMap_blocksOf_congr {memory' : Nat → ConnMemory}
    (same : ∀ fd ∈ fds, (memory' fd).conn = (memory fd).conn ∧
      (memory' fd).writeBuf = (memory fd).writeBuf) :
    fds.flatMap (blocksOf memory') = fds.flatMap (blocksOf memory) := by
  refine List.flatMap_congr fun fd member => ?_
  rw [blocksOf, blocksOf, (same fd member).1, (same fd member).2]

/-- Nothing of a connection is in the pool of the nodes. -/
theorem pool_of_mem_blocksOf {a : Live} (member : a ∈ fds.flatMap (blocksOf memory)) :
    a.pool ≠ slab256 := by
  obtain ⟨fd, -, inBlocks⟩ := List.mem_flatMap.mp member
  rcases List.mem_cons.mp inBlocks with rfl | second
  · exact (by decide : slab4096 ≠ slab256)
  · rw [List.mem_singleton.mp second]
    exact (by decide : slab512 ≠ slab256)

/-- A connection is accepted, with the first free blocks. -/
theorem Ledger.opened (ledger : Ledger slab fds memory blocks) (fresh : fd ∉ fds) {conn writeBuf : Nat}
    (head : (slab.pools slab512).freeList = some conn)
    (head' : (slab.pools slab4096).freeList = some writeBuf) :
    Ledger ⟨Function.update (Function.update slab.pools slab512 (popped (slab.pools slab512) conn)) slab4096
        (popped (slab.pools slab4096) writeBuf)⟩ (fd :: fds)
      (Function.update memory fd ⟨conn + slabDataOffset, writeBuf + slabDataOffset, newNodes⟩) blocks := by
  have others : ∀ other ∈ fds, Function.update memory fd
      ⟨conn + slabDataOffset, writeBuf + slabDataOffset, newNodes⟩ other = memory other :=
    fun other member => Function.update_of_ne (ne_of_mem_of_not_mem member fresh) _ _
  constructor
  · have chosen : poolForSize (slabClass slab512) = some slab512 := rfl
    have chosen' : poolForSize zedisConnWriteSize = some slab4096 := rfl
    have apart : Function.update slab.pools slab512 (popped (slab.pools slab512) conn) slab4096 =
        slab.pools slab4096 :=
      Function.update_of_ne (show slab4096 ≠ slab512 by decide) _ _
    have second := (ledger.inv.alloc chosen head).alloc chosen' (apart.symm ▸ head')
    dsimp only at second
    rw [apart] at second
    rw [List.flatMap_cons, flatMap_blocksOf_congr fun other member => by
      rw [others other member]
      exact ⟨rfl, rfl⟩, blocksOf, Function.update_self]
    exact second
  · intro none
    refine (ledger.fresh none).imp (fun noBlocks => ?_) fun unasked other member => ?_
    · dsimp only
      rw [Function.update_of_ne (show slab256 ≠ slab4096 by decide),
        Function.update_of_ne (show slab256 ≠ slab512 by decide)]
      exact noBlocks
    · rcases List.mem_cons.mp member with rfl | old
      · rw [Function.update_self]
        rfl
      · rw [others other old]
        exact unasked other old

/-- A connection is destroyed. -/
theorem Ledger.freed (ledger : Ledger slab fds memory blocks) (nodup : fds.Nodup) (present : fd ∈ fds) :
    Ledger (zedisSlabFree (zedisSlabFree slab (some (memory fd).writeBuf) zedisConnWriteSize)
        (some (memory fd).conn) (slabClass slab512))
      (fds.filter fun other => other ≠ fd) memory blocks := by
  have others : fds.Perm (fd :: fds.filter fun other => other ≠ fd) := by
    have erased := List.perm_cons_erase present
    rw [nodup.erase_eq_filter] at erased
    refine erased.trans (List.Perm.of_eq (congrArg _ (List.filter_congr fun other _ => ?_)))
    rw [Bool.eq_iff_iff, bne_iff_ne, decide_eq_true_eq]
  have inOrder : SlabInv ⟨slab, ⟨slab4096, (memory fd).writeBuf, zedisConnWriteSize⟩ ::
      ⟨slab512, (memory fd).conn, slabClass slab512⟩ ::
      ((fds.filter fun other => other ≠ fd).flatMap (blocksOf memory) ++ blocks)⟩ :=
    ledger.inv.perm ((others.flatMap_right (blocksOf memory)).append_right blocks)
  constructor
  · have first := inOrder.free List.mem_cons_self
    rw [List.erase_cons_head] at first
    have second := first.free List.mem_cons_self
    rw [List.erase_cons_head] at second
    exact second
  · intro none
    refine (ledger.fresh none).imp (fun noBlocks => ?_) fun unasked other member =>
      unasked other (List.mem_of_mem_filter member)
    exact noBlocks

/-- The nodes of a parser change, and its requests do not matter or are as many. -/
theorem Ledger.setNodes (ledger : Ledger slab fds memory blocks) (nodes : NodePool)
    (asked : blocks = [] → (slab.pools slab256).blockCount = 0 ∨ nodes.asked = (memory fd).nodes.asked) :
    Ledger slab fds (Function.update memory fd { memory fd with nodes := nodes }) blocks := by
  have same : fds.flatMap (blocksOf (Function.update memory fd { memory fd with nodes := nodes })) =
      fds.flatMap (blocksOf memory) := by
    refine flatMap_blocksOf_congr fun other _ => ?_
    by_cases isFd : other = fd
    · subst isFd
      rw [Function.update_self]
      exact ⟨rfl, rfl⟩
    · rw [Function.update_of_ne isFd]
      exact ⟨rfl, rfl⟩
  refine ⟨by rw [same]; exact ledger.inv, fun none => ?_⟩
  rcases asked none with noBlocks | asMany
  · exact Or.inl noBlocks
  · refine (ledger.fresh none).imp_right fun unasked other member => ?_
    by_cases isFd : other = fd
    · subst isFd
      rw [Function.update_self]
      exact asMany.trans (unasked other member)
    · rw [Function.update_of_ne isFd]
      exact unasked other member

/-- A call of `resp_parser_next` has left other nodes. -/
theorem Ledger.parsed (ledger : Ledger slab fds memory blocks) (present : fd ∈ fds)
    {nodes : NodePool} {needs : Bool} {free : List Nat} (start : FreeNodes (memory fd).nodes free)
    (demands : Demands needs (memory fd).nodes nodes) : ∃ more,
    Ledger (takeNodes slab (nodes.asked - (memory fd).nodes.asked)) fds
        (Function.update memory fd { memory fd with nodes := nodes }) (more ++ blocks) ∧
      (blocks = [] → (more = [] ↔ needs = false ∨ (slab.pools slab256).blockCount = 0)) := by
  obtain ⟨more, taken, count, none⟩ := takeNodes_spec ledger.inv (nodes.asked - (memory fd).nodes.asked)
  have sharp : blocks = [] → (more = [] ↔ needs = false ∨ (slab.pools slab256).blockCount = 0) := by
    rintro rfl
    have empty : (slab.pools slab256).freeList = Option.none ↔ (slab.pools slab256).blockCount = 0 := by
      refine ledger.inv.freeList_eq_none_iff fun a held => ?_
      rw [List.append_nil] at held
      exact pool_of_mem_blocksOf held
    rw [none, empty]
    by_cases noBlocks : (slab.pools slab256).blockCount = 0
    · exact iff_of_true (Or.inr noBlocks) (Or.inr noBlocks)
    · refine or_congr_left ?_
      have unasked := (ledger.fresh rfl).resolve_left noBlocks fd present
      cases needs with
      | false =>
        refine iff_of_true ?_ rfl
        rw [demands.1 rfl, Nat.sub_self]
      | true =>
        -- no node is free, as none was ever asked for
        have noneFree : (memory fd).nodes.freeList = Option.none := by
          cases free with
          | nil => exact start.listed
          | cons node free =>
            have below := start.below node List.mem_cons_self
            rw [unasked] at below
            cases below
        have asked := demands.2 rfl noneFree
        exact iff_of_false (Nat.sub_ne_zero_of_lt asked) nofun
  have grown : Ledger (takeNodes slab (nodes.asked - (memory fd).nodes.asked)) fds memory
      (more ++ blocks) := by
    refine ⟨taken.perm (List.perm_append_comm_assoc _ _ _), fun noneLeft => ?_⟩
    rw [count]
    exact ledger.fresh (List.append_eq_nil_iff.mp noneLeft).2
  refine ⟨more, grown.setNodes nodes fun noneLeft => ?_, sharp⟩
  obtain ⟨rfl, rfl⟩ := List.append_eq_nil_iff.mp noneLeft
  rw [count]
  rcases (sharp rfl).mp rfl with unneeded | noBlocks
  · exact Or.inr (congrArg NodePool.asked (demands.1 unneeded))
  · exact Or.inl noBlocks

end Ledger

/-! ### Steps -/

section Steps

variable {s next : System} {blocks : List Live} {fd : Nat} {conn : Conn}

/-- The connections change, but for their descriptors. -/
theorem System.Holds.setServer (holds : s.Holds blocks) {server : ZedisServer}
    (same : readers server.conns = readers s.server.conns) :
    System.Holds { s with server := server } blocks := by
  have fds : server.conns.map Conn.fd = s.server.conns.map Conn.fd := by rw [fds_eq, fds_eq, same]
  unfold System.Holds
  rw [fds]
  exact holds

/-- `conn_destroy` gives the blocks of the connection back. -/
theorem System.Holds.freed (holds : s.Holds blocks) (inv : ServerInv s.server)
    (present : fd ∈ s.server.conns.map Conn.fd) {server : ZedisServer}
    (others : readers server.conns = (readers s.server.conns).filter fun reader => reader.1 ≠ fd) :
    (connFreed s server fd).Holds blocks := by
  have fds : server.conns.map Conn.fd = (s.server.conns.map Conn.fd).filter fun other => other ≠ fd := by
    rw [fds_eq, fds_eq, others, List.filter_map]
    rfl
  have freed := Ledger.freed holds inv.fds present
  unfold System.Holds
  rw [← fds] at freed
  exact freed

/-- The account after a call of `resp_parser_next`. -/
theorem System.Holds.parsed (holds : s.Holds blocks) (inv : SystemInv s)
    (found : connOf s.server fd = some conn) {malloc : Nat → Bool} {said : Verdict RespValueT}
    {parser : RespParser} {nodes : NodePool}
    (runs : nextNodes malloc conn.parser (s.memory fd).nodes = some (said, parser, nodes)) :
    ∃ more, (s.parsed fd parser nodes).Holds (more ++ blocks) ∧ (blocks = [] →
      (more = [] ↔ needsNode (unread conn.parser) = false ∨ (s.slab.pools slab256).blockCount = 0)) := by
  obtain ⟨member, isFd⟩ := connOf_spec found
  have present : fd ∈ s.server.conns.map Conn.fd := isFd ▸ List.mem_map_of_mem member
  have ok : ParserOk conn.parser := inv.parsers _ (List.mem_map_of_mem member)
  obtain ⟨free, start⟩ := inv.nodes fd present
  obtain ⟨more, ledger, sharp⟩ := Ledger.parsed holds present start (nextNodes_demand ok.valid runs)
  refine ⟨more, ?_, sharp⟩
  unfold System.Holds
  rw [fds_parsed]
  exact ledger

/-- **The account after a round.** -/
theorem Round.holds {malloc : Nat → Bool} (round : Round s fd conn malloc next) (inv : SystemInv s)
    (holds : s.Holds blocks) (phase : s.phase = .dispatching fd)
    (found : connOf s.server fd = some conn) :
    ∃ more, next.Holds (more ++ blocks) ∧
      (blocks = [] → (more = [] ↔ NodeFree s (.parse malloc))) := by
  obtain ⟨member, isFd⟩ := connOf_spec found
  have condition : NodeFree s (.parse malloc) ↔
      needsNode (unread conn.parser) = false ∨ (s.slab.pools slab256).blockCount = 0 := by
    refine ⟨fun nodeFree => nodeFree fd conn phase found, fun either fd' conn' phase' found' => ?_⟩
    cases phase.symm.trans phase'
    cases found.symm.trans found'
    exact either
  rw [condition]
  have present : ∀ parser nodes, fd ∈ (s.parsed fd parser nodes).server.conns.map Conn.fd := by
    intro parser nodes
    rw [fds_parsed, ← isFd]
    exact List.mem_map_of_mem member
  cases round with
  | waits parser nodes runs => exact holds.parsed inv found runs
  | protests parser nodes runs =>
    obtain ⟨more, parsed, sharp⟩ := holds.parsed inv found runs
    have serverInv := inv.parsed_server fd parser nodes
    exact ⟨more, parsed.freed serverInv (present parser nodes) (protocolError_spec serverInv fd).2, sharp⟩
  | destroys parser nodes out cmd rest server runs _ ends =>
    obtain ⟨more, parsed, sharp⟩ := holds.parsed inv found runs
    have serverInv := inv.parsed_server fd parser nodes
    obtain ⟨_, _, again, -, others⟩ := dispatchCommand_cases serverInv fd cmd
    cases again.symm.trans ends
    exact ⟨more, parsed.freed serverInv (present parser nodes) others, sharp⟩
  | handles parser nodes released out cmd rest server runs _ ends _ asked =>
    obtain ⟨more, parsed, sharp⟩ := holds.parsed inv found runs
    have serverInv := inv.parsed_server fd parser nodes
    obtain ⟨_, _, again, -, others⟩ := dispatchCommand_cases serverInv fd cmd
    cases again.symm.trans ends
    refine ⟨more, Ledger.setNodes (parsed.setServer others) released fun _ => Or.inr ?_, sharp⟩
    change released.asked = ((s.parsed fd parser nodes).memory fd).nodes.asked
    rw [asked]
    exact congrArg (fun memory => memory.nodes.asked) (memory_setNodes_self _ fd nodes).symm

/-- **The account after a step**: it only grows, and from nothing exactly if a node is needed. -/
theorem Stepped.holds {event : SystemEvent} (stepped : Stepped s event next) (inv : SystemInv s)
    (holds : s.Holds blocks) :
    ∃ more, next.Holds (more ++ blocks) ∧ (blocks = [] → (more = [] ↔ NodeFree s event)) := by
  have target : ∀ {fd : Nat}, s.phase.target = some fd → (destroyConn s fd).Holds blocks :=
    fun isTarget => holds.freed inv.server (inv.target _ isTarget) (readers_connDestroy s.server _)
  cases stepped with
  | turns event phase notParse =>
    refine ⟨[], holds, fun _ => iff_of_true rfl ?_⟩
    unfold NodeFree
    split
    · exact absurd rfl (notParse _)
    · trivial
  | drops => exact ⟨[], holds, fun _ => iff_of_true rfl trivial⟩
  | opens arrival buf conn writeBuf _ fresh _ _ head head' =>
    exact ⟨[], Ledger.opened holds fresh head head', fun _ => iff_of_true rfl trivial⟩
  | adds => exact ⟨[], holds, fun _ => iff_of_true rfl trivial⟩
  | gives fd ok phase =>
    exact ⟨[], target (by rw [phase]; rfl), fun _ => iff_of_true rfl trivial⟩
  | flushes fd conn _ found =>
    exact ⟨[], holds.setServer (readers_flushed inv found), fun _ => iff_of_true rfl trivial⟩
  | breaks fd conn _ found =>
    obtain ⟨member, isFd⟩ := connOf_spec found
    have flushed : (s.setConn fd fun _ => (connOnWritable conn).2).Holds blocks :=
      holds.setServer (readers_flushed inv found)
    have kept := (inv.flushed found).server
    have present : fd ∈ (s.setConn fd fun _ => (connOnWritable conn).2).server.conns.map Conn.fd := by
      rw [fds_eq, System.setConn, readers_flushed inv found, ← fds_eq, ← isFd]
      exact List.mem_map_of_mem member
    exact ⟨[], flushed.freed kept present (readers_connDestroy _ fd), fun _ => iff_of_true rfl trivial⟩
  | ends fd answer phase =>
    exact ⟨[], target (by rw [phase]; rfl), fun _ => iff_of_true rfl trivial⟩
  | reads fd bytes =>
    refine ⟨[], ?_, fun _ => iff_of_true rfl trivial⟩
    have fds : (changeConn s.server.conns fd fun conn =>
        { conn with parser := appendBytes conn.parser bytes }).map Conn.fd =
          s.server.conns.map Conn.fd := changeConn_fds fun _ _ same => same
    change Ledger s.slab ((changeConn s.server.conns fd fun conn =>
      { conn with parser := appendBytes conn.parser bytes }).map Conn.fd) s.memory blocks
    rw [fds]
    exact holds
  | round fd conn malloc _ phase found round => exact round.holds inv holds phase found

end Steps

/-! ### The write buffers -/

/-- What is in the write buffer ends before the link word of the next block. -/
def Inside (conn : Conn) : Prop := conn.writeLen + slabDataOffset ≤ slabClass slab4096

/-- The condition on an event: no node is needed, and an error reply of 29 bytes ends before the link
word of the next block. -/
def Quiet (s : System) : SystemEvent → Prop
  | .parse _ => ∀ fd conn, s.phase = .dispatching fd → connOf s.server fd = some conn →
      needsNode (unread conn.parser) = false ∧ conn.writeLen + 29 + slabDataOffset ≤ slabClass slab4096
  | _ => True

section Buffers

variable {s next : System} {server after : ZedisServer} {fd : Nat} {conn : Conn}

theorem flushLoop_writeLen : ∀ (answers : List WriteAnswer) (conn : Conn),
    (flushLoop answers conn).2.writeLen ≤ conn.writeLen := by
  have blocked : ∀ conn : Conn, (shiftUnsent conn).writeLen ≤ conn.writeLen := by
    intro conn
    unfold shiftUnsent
    split
    · exact Nat.sub_le _ _
    · exact Nat.le_refl _
  intro answers
  induction answers with
  | nil =>
    intro conn
    rw [flushLoop]
    split
    · exact blocked conn
    · exact Nat.zero_le _
  | cons answer answers ih =>
    intro conn
    rw [flushLoop]
    split
    · cases answer with
      | takes n => exact ih _
      | again => exact blocked { conn with socket := { conn.socket with answers := answers } }
      | fails => exact Nat.le_refl _
    · exact Nat.zero_le _

/-- A message makes the write buffer longer by its length at most. -/
theorem connQueueWrite_writeLen (conn : Conn) (data : Bytes) :
    (connQueueWrite conn data).2.writeLen ≤ conn.writeLen + data.length := by
  unfold connQueueWrite
  split
  · exact Nat.le_add_right _ _
  · cases appended : writeBufAppend conn data with
    | none => exact Nat.le_add_right _ _
    | some longer =>
      obtain ⟨-, -, rfl⟩ := writeBufAppend_eq_some appended
      have flushed := flushLoop_writeLen conn.socket.answers { conn with
        writeBuf := store conn.writeBuf conn.writeLen data
        writeLen := conn.writeLen + data.length }
      dsimp only [connFlush]
      split
      · exact flushed
      · exact flushed

/-- A command without elements is answered with 29 bytes, or not at all. -/
theorem inside_dispatch {cmd : RespValue Bytes} {destroyed : Bool}
    (noElements : ∀ elements, cmd = .array elements → elements = [])
    (all : ∀ conn ∈ server.conns, Inside conn)
    (room : ∀ conn ∈ server.conns, conn.fd = fd → conn.writeLen + 29 + slabDataOffset ≤ slabClass slab4096)
    (ends : dispatchCommand fd server cmd = some (after, destroyed)) :
    ∀ conn ∈ after.conns, Inside conn := by
  obtain ⟨rc, handled, runs, isAfter⟩ := dispatchCommand_eq_some ends
  have handledInside : ∀ conn ∈ handled.conns, Inside conn := by
    have replied : some (replyError server fd (ascii "ERR invalid command format")) =
        some (rc, handled) → ∀ conn ∈ handled.conns, Inside conn := by
      rw [replyError_eq (by decide)]
      intro returned
      cases returned
      refine forall_changeConn (fun conn member isFd => ?_) all
      have longer := connQueueWrite_writeLen conn
        ((encodedCall fd 512 (.error (ascii "ERR invalid command format"))).data server.stack)
      rw [encodedCall_data] at longer
      exact (Nat.add_le_add_right longer _).trans (room conn member isFd)
    cases cmd with
    | array elements =>
      rw [noElements elements rfl] at runs
      cases runs
      exact all
    | _ => exact replied runs
  rcases isAfter with rfl | rfl
  · exact handledInside
  · exact forall_connDestroy handledInside fd

theorem Round.inside {malloc : Nat → Bool} (round : Round s fd conn malloc next) (inv : SystemInv s)
    (all : ∀ conn ∈ s.server.conns, Inside conn) (found : connOf s.server fd = some conn)
    (unneeded : needsNode (unread conn.parser) = false)
    (room : conn.writeLen + 29 + slabDataOffset ≤ slabClass slab4096) :
    ∀ conn ∈ next.server.conns, Inside conn := by
  obtain ⟨member, isFd⟩ := connOf_spec found
  have parsed : ∀ parser nodes, ∀ conn ∈ (s.parsed fd parser nodes).server.conns, Inside conn :=
    fun parser nodes => forall_changeConn (fun other listed _ => all other listed) all
  have roomy : ∀ parser nodes, ∀ conn ∈ (s.parsed fd parser nodes).server.conns, conn.fd = fd →
      conn.writeLen + 29 + slabDataOffset ≤ slabClass slab4096 := by
    intro parser nodes
    refine forall_changeConn (fun other listed isOther _ => ?_) fun other listed isOther => ?_
    · rw [← List.inj_on_of_nodup_map inv.server.fds member listed (isFd.trans isOther.symm)]
      exact room
    · rw [← List.inj_on_of_nodup_map inv.server.fds member listed (isFd.trans isOther.symm)]
      exact room
  cases round with
  | waits parser nodes => exact parsed parser nodes
  | protests parser nodes =>
    exact fun other listed => parsed parser nodes other
      (mem_protocolError (inv.parsed_server fd parser nodes) listed)
  | destroys parser nodes out cmd rest server _ decoded ends =>
    exact inside_dispatch (decode_of_not_needsNode decoded unneeded) (parsed parser nodes)
      (roomy parser nodes) ends
  | handles parser nodes released out cmd rest server _ decoded ends =>
    exact inside_dispatch (decode_of_not_needsNode decoded unneeded) (parsed parser nodes)
      (roomy parser nodes) ends

/-- Only a round of `server_dispatch_commands` makes a write buffer longer. -/
theorem Stepped.inside_of_round {event : SystemEvent} (stepped : Stepped s event next)
    (all : ∀ conn ∈ s.server.conns, Inside conn)
    (rounds : ∀ fd conn malloc, event = .parse malloc → s.phase = .dispatching fd →
      connOf s.server fd = some conn → Round s fd conn malloc next →
      ∀ conn ∈ next.server.conns, Inside conn) : ∀ conn ∈ next.server.conns, Inside conn := by
  have flushed : ∀ {fd : Nat} {conn : Conn}, connOf s.server fd = some conn →
      ∀ conn' ∈ changeConn s.server.conns fd fun _ => (connOnWritable conn).2, Inside conn' :=
    fun {fd conn} found => forall_changeConn (fun _ _ _ => (Nat.add_le_add_right
      (flushLoop_writeLen conn.socket.answers conn) _).trans (all conn (connOf_spec found).1)) all
  cases stepped with
  | turns => exact all
  | drops => exact all
  | opens arrival buf conn writeBuf =>
    intro conn member
    rcases List.mem_cons.mp member with rfl | old
    · exact (by decide : 0 + slabDataOffset ≤ slabClass slab4096)
    · exact all conn old
  | adds => exact all
  | gives fd => exact forall_connDestroy all fd
  | flushes fd conn _ found => exact flushed found
  | breaks fd conn _ found => exact forall_connDestroy (flushed found) fd
  | ends fd => exact forall_connDestroy all fd
  | reads fd bytes => exact forall_changeConn (fun conn member _ => all conn member) all
  | round fd conn malloc _ phase found round => exact rounds fd conn malloc rfl phase found round

theorem Stepped.inside {event : SystemEvent} (stepped : Stepped s event next) (inv : SystemInv s)
    (all : ∀ conn ∈ s.server.conns, Inside conn) (quiet : Quiet s event) :
    ∀ conn ∈ next.server.conns, Inside conn := by
  refine stepped.inside_of_round all fun fd conn malloc isParse phase found round => ?_
  subst isParse
  obtain ⟨unneeded, room⟩ := quiet fd conn phase found
  exact round.inside inv all found unneeded room

end Buffers

/-! ### Whole runs -/

section Runs

variable {s start : System} {events : List SystemEvent} {config : ZedisConfig}
  {mapped : Option (Nat → UInt8)} {stack : Nat → UInt8}

/-- **The account of a run.** -/
theorem allFree_iff_of_run (made : systemCreate config mapped stack = some start)
    (run : Run systemStep Always start events s) (closed : s.server.conns = []) :
    AllFree s.slab ↔ Run systemStep NodeFree start events s := by
  have created := systemCreate_created made
  obtain ⟨blocks, ⟨-, holds⟩, sharp⟩ := run.accrues
    (fun s blocks => SystemInv s ∧ s.Holds blocks)
    (fun s blocks event next ⟨inv, holds⟩ taken => by
      obtain ⟨more, holdsNext, sharp⟩ := (systemStep_stepped inv taken).holds inv holds
      exact ⟨more, ⟨inv.step taken, holdsNext⟩, sharp⟩)
    ⟨created.inv, by
      unfold System.Holds
      rw [created.conns]
      exact ⟨created.slab, fun _ => Or.inr nofun⟩⟩
  rw [← sharp rfl]
  unfold System.Holds at holds
  rw [closed, List.append_nil] at holds
  exact holds.inv.allFree_iff

/-- **When no block is leaked.** In a state without connections every block of the slab is free exactly
if no call of `resp_parser_next` has needed a node while the slab has blocks for nodes. In runs in which
no node is needed and short replies have room, no write buffer reaches the link word of a block. -/
theorem no_block_leaked_iff (made : systemCreate config mapped stack = some start)
    (run : Run systemStep Always start events s) :
    (s.server.conns = [] → (AllFree s.slab ↔ Run systemStep NodeFree start events s)) ∧
      (Run systemStep Quiet start events s → Run systemStep NodeFree start events s ∧
        ∀ conn ∈ s.server.conns, Inside conn) := by
  have created := systemCreate_created made
  refine ⟨allFree_iff_of_run made run, fun quiet => ⟨quiet.mono fun s event met => ?_, ?_⟩⟩
  · cases event with
    | parse malloc => exact fun fd conn phase found => Or.inl (met fd conn phase found).1
    | _ => trivial
  · have kept := quiet.invariant (fun s => SystemInv s ∧ ∀ conn ∈ s.server.conns, Inside conn)
      (fun s event next ⟨inv, all⟩ met taken =>
        ⟨inv.step taken, (systemStep_stepped inv taken).inside inv all met⟩)
      ⟨created.inv, by rw [created.conns]; exact nofun⟩
    exact kept.2

/-- A client sends a simple string, which is answered with an error, and leaves. -/
def sampleSimple : List SystemEvent :=
  sampleOpens 5 [.takes 99] ++
    [.ready 5, .read (.data (ascii "+x\r\n")), .parse fun _ => true, .parse fun _ => true, .read .closes]

/-- Every block is free after it. -/
theorem no_block_leaked_simple : ∃ start s,
    systemCreate sampleConfig (some fun _ => 0) (fun _ => 0) = some start ∧
      Run systemStep Always start sampleSimple s ∧ s.server.conns = [] ∧ AllFree s.slab := by
  have shown : ((systemCreate sampleConfig (some fun _ => 0) fun _ => 0).bind fun start =>
      (replay (fun s event => if ∀ conn ∈ s.server.conns, needsNode (unread conn.parser) = false
        then systemStep s event else none) start sampleSimple).map fun s =>
          s.server.conns.map Conn.fd) = some [] := by decide +kernel
  obtain ⟨start, made, returned⟩ := Option.bind_eq_some_iff.mp shown
  obtain ⟨s, replayed, fds⟩ := Option.map_eq_some_iff.mp returned
  have closed : s.server.conns = [] := List.map_eq_nil_iff.mp fds
  have unneeded : Run systemStep (fun s _ => ∀ conn ∈ s.server.conns,
      needsNode (unread conn.parser) = false) start sampleSimple s := Run.of_guarded replayed
  have nodeFree : Run systemStep NodeFree start sampleSimple s := by
    refine unneeded.mono fun s event unneeded => ?_
    cases event with
    | parse malloc => exact fun fd conn _ found => Or.inl (unneeded conn (connOf_spec found).1)
    | _ => trivial
  have run := nodeFree.mono fun _ _ _ => trivial
  exact ⟨start, s, made, run, closed, ((no_block_leaked_iff made run).1 closed).mpr nodeFree⟩

/-- **A block is leaked**: one client connects, sends `PING` and leaves. -/
theorem ping_leaks_block : ∃ start s,
    systemCreate sampleConfig (some fun _ => 0) (fun _ => 0) = some start ∧
      Run systemStep Always start (sampleOpens 5 [.takes 99] ++
        [.ready 5, .read (.data (ascii "PING\r\n"))] ++
        [.parse fun _ => true, .parse fun _ => true, .read .closes]) s ∧
      s.server.conns = [] ∧ ¬ AllFree s.slab := by
  have shown : ((systemCreate sampleConfig (some fun _ => 0) fun _ => 0).bind fun start =>
      (replay systemStep start (sampleOpens 5 [.takes 99] ++
        [.ready 5, .read (.data (ascii "PING\r\n"))])).bind fun middle =>
          (replay systemStep middle [.parse fun _ => true, .parse fun _ => true, .read .closes]).map
            fun s => (s.server.conns.map Conn.fd, middle.phase, (connOf middle.server 5).map
              fun conn => needsNode (unread conn.parser), (middle.slab.pools slab256).blockCount)) =
      some ([], .dispatching 5, some true, 8) := by decide +kernel
  obtain ⟨start, made, returned⟩ := Option.bind_eq_some_iff.mp shown
  obtain ⟨middle, first, returned⟩ := Option.bind_eq_some_iff.mp returned
  obtain ⟨s, second, seen⟩ := Option.map_eq_some_iff.mp returned
  obtain ⟨fds, seen⟩ := Prod.mk.inj seen
  obtain ⟨phase, seen⟩ := Prod.mk.inj seen
  obtain ⟨needs, count⟩ := Prod.mk.inj seen
  obtain ⟨conn, found, needed⟩ := Option.map_eq_some_iff.mp needs
  have closed : s.server.conns = [] := List.map_eq_nil_iff.mp fds
  have begins : Run systemStep Always start _ middle := Run.of_replay (fun _ _ _ => trivial) first
  have run := begins.append (Run.of_replay (fun _ _ _ => trivial) second)
  refine ⟨start, s, made, run, closed, fun allFree => ?_⟩
  -- the first call needs a node, for the word of the line
  obtain ⟨before, same, rest⟩ := ((allFree_iff_of_run made run closed).mp allFree).of_append
  have isMiddle : before = middle := Option.some.inj (same.replay_eq.symm.trans first)
  subst isMiddle
  cases rest with
  | cons met _ _ =>
    rcases met 5 conn phase found with unneeded | noBlocks
    · rw [needed] at unneeded
      cases unneeded
    · rw [count] at noBlocks
      cases noBlocks

end Runs

end Zedis.EventLoop
