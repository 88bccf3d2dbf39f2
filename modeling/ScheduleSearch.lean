import ScheduleSearch.Command.Request
import ScheduleSearch.Proofs.Ascent
import ScheduleSearch.Proofs.BestPath
import ScheduleSearch.Proofs.BestScore
import ScheduleSearch.Proofs.Budget
import ScheduleSearch.Proofs.Commands
import ScheduleSearch.Proofs.DepthTimes
import ScheduleSearch.Proofs.Discovery
import ScheduleSearch.Proofs.Drawing
import ScheduleSearch.Proofs.Edits
import ScheduleSearch.Proofs.FirstBest
import ScheduleSearch.Proofs.HashText
import ScheduleSearch.Proofs.History
import ScheduleSearch.Proofs.Independence
import ScheduleSearch.Proofs.Knobs
import ScheduleSearch.Proofs.Levels
import ScheduleSearch.Proofs.Marks
import ScheduleSearch.Proofs.ModelSlots
import ScheduleSearch.Proofs.NestShape
import ScheduleSearch.Proofs.NestText
import ScheduleSearch.Proofs.Offers
import ScheduleSearch.Proofs.Opposites
import ScheduleSearch.Proofs.Pieces
import ScheduleSearch.Proofs.Ranking
import ScheduleSearch.Proofs.Refusal
import ScheduleSearch.Proofs.Registers
import ScheduleSearch.Proofs.Remaining
import ScheduleSearch.Proofs.Safety
import ScheduleSearch.Proofs.Series
import ScheduleSearch.Proofs.ShortForm
import ScheduleSearch.Proofs.Soundness
import ScheduleSearch.Proofs.Spelling
import ScheduleSearch.Proofs.Ties
import ScheduleSearch.Proofs.Tours
import ScheduleSearch.Proofs.Transitions
import ScheduleSearch.Proofs.Wire
import ScheduleSearch.Search.Wire
import ScheduleSearch.Session.Basic
import ScheduleSearch.World.Analytic
import ScheduleSearch.World.UpDown
