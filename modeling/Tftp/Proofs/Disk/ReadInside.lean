import Tftp.Proofs.Disk.Reading
import Tftp.Proofs.Disk.Resolve
import Tftp.Server

namespace Tftp
namespace Disk
namespace Served

def Inside (s : Served) (q : Place) : Prop := s.root <+: q ∧ q ≠ s.root

variable {s : Served} {name : Bytes} {p : Path}

theorem code_of_refusesRead {path : Bytes} {e : Error} (h : e.RefusesRead path) :
    e.code = .accessViolation ∨ e.code = .fileNotFound := by
  cases h with
  | notFound => exact .inr rfl
  | notRegular | cannotStat | cannotOpen => exact .inl rfl

/-- A name is resolved to a path below the root, without "." and "..", and behind all links of the
path there is nothing, or something inside. Reading under a name is refused with one of two codes,
whatever the system refuses, or it gives the content of a regular file inside that the path leads to,
from the start on and in full as long as it can be fetched. -/
theorem read_inside (lawful : s.tree.Lawful) (root : s.tree.node? s.root = some .dir)
    (h0 : 0 ∉ name) :
    (∀ p, s.resolve name = .ok p →
      (∃ rest, rest ≠ [] ∧ p.names = s.root ++ rest) ∧ here ∉ p.names ∧ above ∉ p.names ∧
        ∀ q n, s.tree.Reaches [] p.elements q → s.tree.node? q = some n → s.Inside q) ∧
    ((∃ e, Server.openFile .read name s = (.error e, s) ∧
        (e.code = .accessViolation ∨ e.code = .fileNotFound)) ∨
      ∃ file p q k content, Server.openFile .read name s = (.ok file, s) ∧
        s.resolve name = .ok p ∧ s.tree.Reaches [] p.elements q ∧ s.Inside q ∧
        s.tree.node? q = some (.file k content) ∧
        ∀ sizes, s.FromStart k content.toList sizes (s.readAll file sizes)) := by
  have hlegible := lawful.legible_of (p := s.root) (by simp [root])
  constructor
  · intro p hp
    have h := resolved_of_resolve hp
    have hnames := h.legible h0 hlegible
    refine ⟨h.names_eq h0 lawful root, fun hm => (hnames _ hm).proper.2.1 rfl,
      fun hm => (hnames _ hm).proper.2.2 rfl, fun q n hq hn => ?_⟩
    exact h.below_of_found (h.found_of_reaches h0 hlegible hq hn)
  · cases hp : s.resolve name with
    | error e => exact .inl ⟨_, openFile_unresolved hp .read, .inl (code_of_resolve hp)⟩
    | ok p =>
      have h := resolved_of_resolve hp
      rw [openFile_read_ok hp]
      rcases s.openRead_cases p.text with ⟨e, he, hrefuses⟩ | ⟨q, k, content, hs, ho⟩
      · exact .inl ⟨e.toStorageError, by rw [he]; rfl, code_of_refusesRead hrefuses⟩
      · have hnode := (Tree.status_eq_found_iff.1 hs).2
        have hahead := Reader.ahead_openAt hs (lawful.shared q k content hnode)
        exact .inr ⟨_, p, q, k, content, by rw [ho]; rfl, rfl, h.reaches_of_found h0 hlegible hs,
          h.below_of_found hs, hnode, fromStart_readAll hahead _⟩

def linkedTree : Tree where
  entries := [
    ([ascii "root"], .dir),
    ([ascii "root", ascii "file"], .file 0 #[65, 66]),
    ([ascii "root", ascii "sub"], .dir),
    ([ascii "root", ascii "sub", ascii "link"], .link (ascii "../../root//file"))]
  serial := 1

def linkedServed : Served where
  tree := linkedTree
  root := [ascii "root"]
  tags _ := []

theorem lawful_linkedTree : linkedTree.Lawful := Tree.lawful_of_orderly (by decide +kernel)

theorem read_inside_link :
    linkedServed.tree.Lawful ∧ linkedServed.tree.node? linkedServed.root = some .dir ∧
      0 ∉ ascii "//./sub/link" ∧
      ∃ file p q k content,
        Server.openFile .read (ascii "//./sub/link") linkedServed = (.ok file, linkedServed) ∧
        linkedServed.resolve (ascii "//./sub/link") = .ok p ∧
        linkedServed.tree.Reaches [] p.elements q ∧ linkedServed.Inside q ∧
        linkedServed.tree.node? q = some (.file k content) ∧
        ∀ sizes, linkedServed.FromStart k content.toList sizes (linkedServed.readAll file sizes) := by
  have h0 : 0 ∉ ascii "//./sub/link" := by decide
  have hok : (Server.openFile .read (ascii "//./sub/link") linkedServed).1.isOk := by
    decide +kernel
  refine ⟨lawful_linkedTree, rfl, h0, ?_⟩
  rcases (read_inside (s := linkedServed) lawful_linkedTree rfl h0).2 with ⟨e, he, _⟩ | h
  · rw [he] at hok
    cases hok
  · exact h

end Served
end Disk
end Tftp
