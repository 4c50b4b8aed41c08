import Tetris.Registers
import Tetris.BlockLogic
import Tetris.Machine
import Tetris.Slide
import Tetris.Blocks
import Tetris.Tetromino
import Tetris.Motion
import Tetris.Transitions
import Tetris.Access
import Tetris.Collision
import Tetris.Well
import Tetris.RowShift
import Tetris.Window
import Tetris.Clearing
import Tetris.RowClearing
import Tetris.Drawing
import Tetris.Handshake
import Tetris.Restart
import Tetris.Score
import Tetris.TopRows
import Tetris.LineScore
import Tetris.Gravity
import Tetris.Raster
import Tetris.VideoTiming
import Tetris.ColorMapper
import Tetris.Usb
import Tetris.Transfer
import Tetris.Enumeration
import Tetris.Game
import Tetris.Ledger
import Tetris.Picture
import Tetris.Dabble
import Tetris.Digits
import Tetris.Video
import Tetris.Progress
import Tetris.Unattended
import Tetris.Keys
import Tetris.HostPort
import Tetris.Polling
import Tetris.Rounds
import Tetris.Stages
import Tetris.Service
import Tetris.Console
