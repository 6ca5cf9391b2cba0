import Tabletop.Main
import Tabletop.Proofs.Compendium.Loading
import Tabletop.Proofs.Dice.Odds
import Tabletop.Proofs.Expansion.BreadthFirst
import Tabletop.Proofs.Expansion.Flat
import Tabletop.Proofs.Expansion.Format
import Tabletop.Proofs.Expansion.IndexedTally
import Tabletop.Proofs.Expansion.NonUnique
import Tabletop.Proofs.Expansion.Outline
import Tabletop.Proofs.Expansion.Unrolled
import Tabletop.Proofs.Lint
import Tabletop.Proofs.Placeholder.Joined
import Tabletop.Proofs.Placeholder.Reference
import Tabletop.Proofs.Placeholder.Trailing
import Tabletop.Proofs.Placeholder.WellFormed
import Tabletop.Proofs.Render.Rows
import Tabletop.Proofs.Replay
import Tabletop.Proofs.Table.OwnRoll
import Tabletop.Text
