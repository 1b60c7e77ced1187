import Netlist.Main
import Netlist.Proofs.Acceptance
import Netlist.Proofs.Adjacency
import Netlist.Proofs.Blame
import Netlist.Proofs.Closing
import Netlist.Proofs.Commutation
import Netlist.Proofs.Indexing
import Netlist.Proofs.Interleaving
import Netlist.Proofs.Isolation
import Netlist.Proofs.Numerals
import Netlist.Proofs.Ordering
import Netlist.Proofs.Outcomes
import Netlist.Proofs.Overrun
import Netlist.Proofs.Permanence
import Netlist.Proofs.Ranges
import Netlist.Proofs.Relayout
import Netlist.Proofs.Reserved
import Netlist.Proofs.Resolution
import Netlist.Proofs.Sections
import Netlist.Proofs.Truncation
import Netlist.Proofs.Turns
import Netlist.Session
